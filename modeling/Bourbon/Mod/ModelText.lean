import Bourbon.Lib.TextStream
import Bourbon.Mod.ModelFile

/-!
# Loading model files

`ReadModel` again, over the bytes of any file that a crash may have left: an `ifstream` whose
extractions fail without a word, and two loops.  The first loop ends at the word `StartAcc` and
nowhere else; the second one ends when an extraction fails.

* `segments_of_readSegmentLines` : if the first loop ends, the text has the shape `Segments`;
* `exists_readPairLines` : the second loop always ends;
* `readModelText_loads_iff` : `ReadModel` returns, and marks the model as learned only if it has
  read its bounds, exactly for complete model files.
-/

namespace Bourbon

open Decimal

/-- How the standard library extracts numbers. -/
structure NumGet where
  uint64 : Extractor ℕ
  int : Extractor ℤ
  double : Extractor ℚ

section

variable (lib : NumGet)

/-- The first line: the block geometry. -/
def readGeometry (s : TextStream) (g : BlockGeometry) : TextStream × BlockGeometry :=
  let (s, block_num_entries) := s.getNumber lib.uint64 g.block_num_entries
  let (s, block_size) := s.getNumber lib.uint64 g.block_size
  let (s, entry_size) := s.getNumber lib.uint64 g.entry_size
  (s, ⟨block_num_entries, block_size, entry_size, g.block_num_entries_recorded⟩)

/-- The numbers of a line for a segment.  The variables are not initialised; a failed stream leaves
them as they are. -/
def readLine (s : TextStream) : TextStream × ℚ × ℚ :=
  let (s, k) := s.getNumber lib.double 0
  let (s, b) := s.getNumber lib.double 0
  (s, k, b)

/-- The loop of `ReadModel` over the segments, for at most `fuel` rounds. -/
def readSegmentLines : ℕ → TextStream → List Segment → Option (TextStream × List Segment)
  | 0, _, _ => none
  | fuel + 1, s, string_segments =>
    let (s, x) := s.getString
    if x = startAcc then some (s, string_segments)
    else
      let (s, k, b) := readLine lib s
      readSegmentLines fuel s (string_segments ++ [⟨toUint64 (atoll x), k, b⟩])

/-- The fields behind `StartAcc`. -/
def readFields (s : TextStream) (m : LearnedIndexData) : TextStream × LearnedIndexData :=
  let (s, min_key) := s.getNumber lib.uint64 m.min_key
  let (s, max_key) := s.getNumber lib.uint64 m.max_key
  let (s, size) := s.getNumber lib.uint64 m.size
  let (s, level) := s.getNumber lib.int m.level
  let (s, cost) := s.getNumber lib.uint64 m.cost
  (s, { m with
    min_key := min_key, max_key := max_key, size := size, level := level.toNat, cost := cost })

/-- The loop of `ReadModel` over the accumulated numbers of entries, for at most `fuel` rounds. -/
def readPairLines : ℕ → TextStream → List (ℕ × Bytes) → Option (List (ℕ × Bytes))
  | 0, _, _ => none
  | fuel + 1, s, array =>
    let (s, first) := s.getNumber lib.uint64 0
    let (s, second) := s.getString
    if s.fail then some array else readPairLines fuel s (array ++ [(first, second)])

/-- `ReadModel` of a file with the given content into the object `m`, with at most `fuel` rounds of
each loop. -/
def readModelText (fuel : ℕ) (content : Bytes) (g : BlockGeometry) (m : LearnedIndexData) :
    Option (BlockGeometry × LearnedIndexData) :=
  let header := readGeometry lib (.ofBytes content) g
  (readSegmentLines lib fuel header.1 m.string_segments).bind fun p =>
    let fields := readFields lib p.1 { m with string_segments := p.2 }
    (readPairLines lib fuel fields.1 fields.2.num_entries_accumulated).map fun array =>
      (header.2, { fields.2 with num_entries_accumulated := array, learned := true })

/-- The text has lines with a word and two numbers, and then the word `StartAcc`, behind which the
second stream stands. -/
inductive Segments : TextStream → TextStream → Prop where
  | startAcc {s s' : TextStream} (hword : s.getString = (s', startAcc)) : Segments s s'
  | line {s s₁ s' : TextStream} {x : Bytes} (hword : s.getString = (s₁, x)) (hne : x ≠ startAcc)
      (hnumbers : (readLine lib s₁).1.fail = false)
      (hlines : Segments (readLine lib s₁).1 s') : Segments s s'

/-- A complete model file: a line of three numbers, lines with segments, and a line `StartAcc` with
all its fields. -/
def Complete (content : Bytes) (g : BlockGeometry) (m : LearnedIndexData) : Prop :=
  ∃ s, Segments lib (readGeometry lib (.ofBytes content) g).1 s ∧
    (readFields lib s m).1.fail = false

end

/-! ### The loops -/

section

variable {lib : NumGet} {s s' : TextStream} {fuel : ℕ} {segs segs' : List Segment}

theorem readSegmentLines_succ (fuel : ℕ) (s : TextStream) (segs : List Segment) :
    readSegmentLines lib (fuel + 1) s segs =
      if s.getString.2 = startAcc then some (s.getString.1, segs)
      else readSegmentLines lib fuel (readLine lib s.getString.1).1 (segs ++
        [⟨toUint64 (atoll s.getString.2), (readLine lib s.getString.1).2.1,
          (readLine lib s.getString.1).2.2⟩]) :=
  rfl

theorem readPairLines_succ (fuel : ℕ) (s : TextStream) (array : List (ℕ × Bytes)) :
    readPairLines lib (fuel + 1) s array =
      if (s.getNumber lib.uint64 0).1.getString.1.fail then some array
      else readPairLines lib fuel (s.getNumber lib.uint64 0).1.getString.1
        (array ++ [((s.getNumber lib.uint64 0).2, (s.getNumber lib.uint64 0).1.getString.2)]) :=
  rfl

theorem readLine_of_fail (h : s.fail = true) : (readLine lib s).1.fail = true :=
  TextStream.getNumber_of_fail (TextStream.getNumber_of_fail h)

/-- **The first loop does not end on a stream that has failed**: the word stays empty. -/
theorem readSegmentLines_of_fail (h : s.fail = true) : readSegmentLines lib fuel s segs = none := by
  induction fuel generalizing s segs with
  | zero => rfl
  | succ fuel ih =>
    obtain ⟨hfail, hword⟩ := TextStream.getString_of_fail h
    rw [readSegmentLines_succ, hword, if_neg (by decide)]
    exact ih (readLine_of_fail hfail)

theorem segments_of_readSegmentLines (h : readSegmentLines lib fuel s segs = some (s', segs')) :
    Segments lib s s' := by
  induction fuel generalizing s segs with
  | zero => cases h
  | succ fuel ih =>
    rw [readSegmentLines_succ] at h
    by_cases hword : s.getString.2 = startAcc
    · rw [if_pos hword] at h
      obtain ⟨rfl, -⟩ := Prod.mk.inj (Option.some.inj h)
      exact .startAcc (Prod.ext rfl hword)
    · rw [if_neg hword] at h
      cases hfail : (readLine lib s.getString.1).1.fail with
      | true =>
        rw [readSegmentLines_of_fail hfail] at h
        cases h
      | false => exact .line rfl hword hfail (ih h)

theorem exists_readSegmentLines (h : Segments lib s s') (segs : List Segment) :
    ∃ fuel₀ segs', ∀ fuel ≥ fuel₀, readSegmentLines lib fuel s segs = some (s', segs') := by
  induction h generalizing segs with
  | @startAcc s s' hword =>
    refine ⟨1, segs, fun fuel hfuel => ?_⟩
    obtain ⟨fuel, rfl⟩ := Nat.exists_eq_succ_of_ne_zero (Nat.ne_of_gt hfuel)
    rw [readSegmentLines_succ, hword, if_pos rfl]
  | @line s s₁ s' x hword hne hnumbers hlines ih =>
    obtain ⟨fuel₀, segs', hlast⟩ := ih
      (segs ++ [⟨toUint64 (atoll x), (readLine lib s₁).2.1, (readLine lib s₁).2.2⟩])
    refine ⟨fuel₀ + 1, segs', fun fuel hfuel => ?_⟩
    obtain ⟨fuel, rfl⟩ := Nat.exists_eq_succ_of_ne_zero (n := fuel) (by omega)
    rw [readSegmentLines_succ, hword, if_neg hne]
    exact hlast fuel (by omega)

/-- **The second loop ends**: every round takes a word from the text. -/
theorem exists_readPairLines (lib : NumGet) (s : TextStream) (array : List (ℕ × Bytes)) :
    ∀ fuel > s.rest.length, ∃ array', readPairLines lib fuel s array = some array' := by
  intro fuel
  induction fuel generalizing s array with
  | zero => exact fun h => absurd h (Nat.not_lt_zero _)
  | succ fuel ih =>
    intro hfuel
    rw [readPairLines_succ]
    have hnumber := TextStream.length_getNumber_le lib.uint64 s 0
    rcases (s.getNumber lib.uint64 0).1.getString_cases with ⟨hfail, -⟩ | ⟨hfail, hlen⟩
    · exact ⟨array, if_pos hfail⟩
    · rw [hfail, if_neg Bool.false_ne_true]
      exact ih _ _ (by omega)

end

/-! ### The whole file -/

section

variable (lib : NumGet) (content : Bytes) (g : BlockGeometry) (m : LearnedIndexData)

theorem readModelText_eq_none {fuel : ℕ}
    (h : (readGeometry lib (.ofBytes content) g).1.fail = true) :
    readModelText lib fuel content g m = none := by
  rw [readModelText, readSegmentLines_of_fail h, Option.bind_none]

/-- **`ReadModel` returns** exactly if the text leads to the word `StartAcc`. -/
theorem readModelText_returns_iff :
    (∃ fuel r, readModelText lib fuel content g m = some r) ↔
      ∃ s, Segments lib (readGeometry lib (.ofBytes content) g).1 s := by
  constructor
  · rintro ⟨fuel, r, hr⟩
    rw [readModelText] at hr
    obtain ⟨⟨s, segs⟩, hsegs, -⟩ := Option.bind_eq_some_iff.1 hr
    exact ⟨s, segments_of_readSegmentLines hsegs⟩
  · rintro ⟨s, hsegs⟩
    obtain ⟨fuel₀, segs, hlines⟩ := exists_readSegmentLines hsegs m.string_segments
    set read := readFields lib s { m with string_segments := segs } with hread
    set fuel := max fuel₀ (read.1.rest.length + 1) with hfuel
    obtain ⟨array, hpairs⟩ := exists_readPairLines lib read.1 read.2.num_entries_accumulated fuel
      (by omega)
    refine ⟨fuel, ((readGeometry lib (.ofBytes content) g).2,
      { read.2 with num_entries_accumulated := array, learned := true }), ?_⟩
    rw [readModelText, hlines fuel (by omega), Option.bind_some]
    exact Option.map_eq_some_iff.2 ⟨array, hpairs, rfl⟩

/-- **Loading a model file.**  `ReadModel` returns, and marks the model as learned only if the
`StartAcc` line and all its fields have been read, if and only if the file is complete. -/
theorem readModelText_loads_iff :
    ((∃ fuel r, readModelText lib fuel content g m = some r) ∧
      ∀ fuel g' m', readModelText lib fuel content g m = some (g', m') → m'.learned = true →
        Complete lib content g m) ↔
      Complete lib content g m := by
  constructor
  · rintro ⟨⟨fuel, ⟨g', m'⟩, hr⟩, hlearned⟩
    refine hlearned fuel g' m' hr ?_
    rw [readModelText] at hr
    obtain ⟨⟨s, segs⟩, -, hread⟩ := Option.bind_eq_some_iff.1 hr
    obtain ⟨array, -, hm'⟩ := Option.map_eq_some_iff.1 hread
    rw [← (Prod.mk.inj hm').2]
  · intro hcomplete
    have hsegs : ∃ s, Segments lib (readGeometry lib (.ofBytes content) g).1 s :=
      hcomplete.imp fun s h => h.1
    exact ⟨(readModelText_returns_iff lib content g m).2 hsegs, fun _ _ _ _ _ => hcomplete⟩

end

/-! ### Truncated files -/

/-- Extraction of a number without sign: a numeral below `2 ^ 64`. -/
def numeralExtractor : Extractor ℕ where
  get text :=
    let word := text.takeWhile fun b => decide (IsDigit b)
    let rest := text.dropWhile fun b => decide (IsDigit b)
    if word = [] then (0, false, rest)
    else if value word < 2 ^ 64 then (value word, true, rest) else (2 ^ 64 - 1, false, rest)
  suffix := by
    intro text
    have hsuffix := List.dropWhile_suffix (l := text) fun b => decide (IsDigit b)
    simp only
    split_ifs <;> exact hsuffix

/-- Numbers without sign, point and exponent. -/
def plainNumbers : NumGet where
  uint64 := numeralExtractor
  int := ⟨fun text => ((numeralExtractor.get text).1, (numeralExtractor.get text).2),
    numeralExtractor.suffix⟩
  double := ⟨fun text => ((numeralExtractor.get text).1, (numeralExtractor.get text).2),
    numeralExtractor.suffix⟩

/-- The text `1 26 13`, a line end, and `StartAcc 1 9`: a model file that ends inside the line
`StartAcc`. -/
def truncatedText : Bytes :=
  [49, 32, 50, 54, 32, 49, 51, 10] ++ startAcc ++ [32, 49, 32, 57]

/-- **Truncated model files.**  `ReadModel` of an empty file does not return, whatever the standard
library does; a file that ends inside the line `StartAcc` is accepted without the fields that are
missing. -/
theorem truncated_model_files :
    (∀ lib g m fuel, readModelText lib fuel [] g m = none) ∧
    ¬ Complete plainNumbers truncatedText ⟨0, 0, 0, false⟩ (.new 8 8 false) ∧
    (readModelText plainNumbers 2 truncatedText ⟨0, 0, 0, false⟩ (.new 8 8 false)).map
      (fun r => (r.2.learned, r.2.min_key, r.2.max_key, r.2.size)) = some (true, 1, 9, 0) := by
  refine ⟨fun lib g m fuel => ?_, ?_, by decide +kernel⟩
  · have hfirst : ((TextStream.ofBytes []).getNumber lib.uint64 g.block_num_entries).1.fail =
        true := rfl
    have hfail : (readGeometry lib (.ofBytes []) g).1.fail = true := by
      rw [readGeometry]
      exact TextStream.getNumber_of_fail (TextStream.getNumber_of_fail hfirst)
    exact readModelText_eq_none lib [] g m hfail
  · rintro ⟨s, hsegs, hfields⟩
    cases hsegs with
    | startAcc hword =>
      rw [← (Prod.mk.inj hword).1] at hfields
      exact absurd hfields (by decide +kernel)
    | line hword hne =>
      refine hne ((Prod.mk.inj hword).2.symm.trans ?_)
      decide +kernel

end Bourbon
