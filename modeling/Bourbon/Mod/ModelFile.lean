import Mathlib.Data.Int.Log
import Bourbon.Mod.LearnedIndex

/-!
# Model files

`WriteModel` prints a learned model as text: the block geometry, the segments, the bounds and the
accumulated numbers of entries; `ReadModel` reads it into a fresh object.  A double is printed with
15 significant digits (`round15`), and the error of the model is not printed at all: the reader
keeps the one configured in its own process.

* `readModel_writeModel` : what a fresh object holds after reading;
* `readModel_contains_iff` : when the model read back still predicts the keys it was trained on.
-/

namespace Bourbon

open Decimal

/-! ### Numbers as text -/

/-- The nearest integer, an even one if there are two. -/
def roundEven (q : ℚ) : ℤ :=
  if q - ⌊q⌋ < 1 / 2 then ⌊q⌋
  else if 1 / 2 < q - ⌊q⌋ then ⌊q⌋ + 1
  else if ⌊q⌋ % 2 = 0 then ⌊q⌋ else ⌊q⌋ + 1

/-- The number that is printed for a double with `precision(15)`. -/
def round15 (q : ℚ) : ℚ :=
  if q = 0 then 0
  else
    let scale : ℚ := 10 ^ (14 - Int.log 10 |q|)
    roundEven (q * scale) / scale

/-- A word of a text file.  A printed double stands for the number that its digits denote. -/
inductive Word where
  | text (s : Bytes)
  | double (q : ℚ)
  deriving DecidableEq

/-- `input_file >> n` for an unsigned number. -/
def readUint64 : List Word → Option (ℕ × List Word)
  | .text s :: words => if IsNumeral s ∧ value s < 2 ^ 64 then some (value s, words) else none
  | _ => none

theorem readUint64_numeral {n : ℕ} (h : n < 2 ^ 64) (words : List Word) :
    readUint64 (.text (numeral n) :: words) = some (n, words) := by
  obtain ⟨hnum, hval⟩ := numeral_spec (show n < 10 ^ 20 by omega)
  rw [readUint64, if_pos ⟨hnum, by rw [hval]; exact h⟩, hval]

/-! ### Writing and reading -/

/-- The word `StartAcc`. -/
def startAcc : Bytes := [83, 116, 97, 114, 116, 65, 99, 99]

/-- A line of a segment. -/
def printSegment (s : Segment) : List Word :=
  [.text (numeral s.x), .double (round15 s.k), .double (round15 s.b)]

/-- A line behind `StartAcc`. -/
def printPair (p : ℕ × Bytes) : List Word := [.text (numeral p.1), .text p.2]

/-- The loop of `ReadModel` over the segments.  `none` stands for a loop that does not end or a
number that cannot be read. -/
def readSegments : List Word → Option (List Segment × List Word)
  | .text x :: words =>
    if x = startAcc then some ([], words)
    else
      match words with
      | .double k :: .double b :: words =>
        (readSegments words).map fun r => (⟨toUint64 (atoll x), k, b⟩ :: r.1, r.2)
      | _ => none
  | _ => none

/-- The loop of `ReadModel` over the accumulated numbers of entries. -/
def readPairs : List Word → List (ℕ × Bytes)
  | .text n :: .text key :: words =>
    if IsNumeral n ∧ value n < 2 ^ 64 then (value n, key) :: readPairs words else []
  | _ => []

namespace LearnedIndexData

/-- `WriteModel`: the file, if one is written. -/
def writeModel (g : BlockGeometry) (m : LearnedIndexData) : Option (List Word) :=
  if !m.learned then none
  else some
    ([.text (numeral g.block_num_entries), .text (numeral g.block_size),
      .text (numeral g.entry_size)] ++ m.string_segments.flatMap printSegment ++
    [.text startAcc, .text (numeral m.min_key), .text (numeral m.max_key), .text (numeral m.size),
      .text (numeral m.level), .text (numeral m.cost)] ++
    m.num_entries_accumulated.flatMap printPair)

/-- `ReadModel` into the object `m`.  `none` stands for a file that is not a model file. -/
def readModel (file : Option (List Word)) (g : BlockGeometry) (m : LearnedIndexData) :
    Option (BlockGeometry × LearnedIndexData) :=
  match file with
  | none => some (g, m)
  | some words => do
    let (block_num_entries, words) ← readUint64 words
    let (block_size, words) ← readUint64 words
    let (entry_size, words) ← readUint64 words
    let (segments, words) ← readSegments words
    let (min_key, words) ← readUint64 words
    let (max_key, words) ← readUint64 words
    let (size, words) ← readUint64 words
    let (level, words) ← readUint64 words
    let (cost, words) ← readUint64 words
    some (⟨block_num_entries, block_size, entry_size, g.block_num_entries_recorded⟩,
      { m with
        string_segments := m.string_segments ++ segments
        min_key := min_key
        max_key := max_key
        size := size
        level := level
        cost := cost
        num_entries_accumulated := m.num_entries_accumulated ++ readPairs words
        learned := true })

end LearnedIndexData

/-- A segment as it is read back. -/
def roundSegment (s : Segment) : Segment := ⟨s.x, round15 s.k, round15 s.b⟩

theorem readSegments_startAcc (words : List Word) :
    readSegments (.text startAcc :: words) = some ([], words) := by
  rw [readSegments.eq_def]
  exact if_pos rfl

theorem readSegments_print {segs : List Segment} (h : ∀ s ∈ segs, s.x < 2 ^ 63)
    (words : List Word) :
    readSegments (segs.flatMap printSegment ++ .text startAcc :: words) =
      some (segs.map roundSegment, words) := by
  induction segs with
  | nil => rw [List.flatMap_nil, List.nil_append, readSegments_startAcc, List.map_nil]
  | cons s segs ih =>
    have hx := h s List.mem_cons_self
    obtain ⟨hnum, hval⟩ := numeral_spec (show s.x < 10 ^ 20 by omega)
    -- a numeral is not the word `StartAcc`
    have hne : numeral s.x ≠ startAcc := by
      intro heq
      have := hnum.2 83 (by rw [heq]; decide)
      revert this
      decide
    rw [List.flatMap_cons, List.append_assoc, printSegment, List.cons_append, List.cons_append,
      List.cons_append, List.nil_append, readSegments, if_neg hne,
      ih fun s' hs' => h s' (List.mem_cons_of_mem s hs'), Option.map_some,
      atoll_eq hnum (by rw [hval]; exact hx), hval]
    rfl

theorem readPairs_print {pairs : List (ℕ × Bytes)} (h : ∀ p ∈ pairs, p.1 < 2 ^ 64) :
    readPairs (pairs.flatMap printPair) = pairs := by
  induction pairs with
  | nil => rfl
  | cons p pairs ih =>
    have hp := h p List.mem_cons_self
    obtain ⟨hnum, hval⟩ := numeral_spec (show p.1 < 10 ^ 20 by omega)
    rw [List.flatMap_cons, printPair, List.cons_append, List.cons_append, List.nil_append,
      readPairs, if_pos ⟨hnum, by rw [hval]; exact hp⟩, hval,
      ih fun q hq => h q (List.mem_cons_of_mem p hq)]

namespace LearnedIndexData

variable {g : BlockGeometry} {m : LearnedIndexData}

theorem readModel_frame {file : Option (List Word)} {g' : BlockGeometry}
    {m' : LearnedIndexData} (h : readModel file g m = some (g', m')) :
    m'.string_keys = m.string_keys ∧ m'.filled = m.filled ∧
      (m'.learned = true → file = none → m.learned = true) := by
  cases file with
  | none =>
    simp only [readModel, Option.some.injEq, Prod.mk.injEq] at h
    obtain ⟨-, rfl⟩ := h
    exact ⟨rfl, rfl, fun h _ => h⟩
  | some words =>
    simp only [readModel, Option.bind_eq_bind, Option.bind_eq_some_iff, Option.some.injEq,
      Prod.mk.injEq] at h
    obtain ⟨_, -, _, -, _, -, _, -, _, -, _, -, _, -, _, -, _, -, -, rfl⟩ := h
    exact ⟨rfl, rfl, fun _ h => absurd h (Option.some_ne_none words)⟩

/-- The numbers of a model are in the range of their machine types. -/
structure InRange (m : LearnedIndexData) : Prop where
  segment : ∀ s ∈ m.string_segments, s.x < 2 ^ 63
  min_key : m.min_key < 2 ^ 63
  max_key : m.max_key < 2 ^ 63
  size : m.size < 2 ^ 64
  level : m.level < 2 ^ 64
  cost : m.cost < 2 ^ 64
  accumulated : ∀ p ∈ m.num_entries_accumulated, p.1 < 2 ^ 64

/-- A model as a fresh object of the same kind reads it back. -/
def reloaded (file_model_error level_model_error : ℕ) (m : LearnedIndexData) : LearnedIndexData :=
  { new file_model_error level_model_error m.is_level with
    learned := true
    string_segments := m.string_segments.map roundSegment
    min_key := m.min_key
    max_key := m.max_key
    size := m.size
    num_entries_accumulated := m.num_entries_accumulated
    level := m.level
    cost := m.cost }

/-- **Reading a written model.** -/
theorem readModel_writeModel (hlearned : m.learned = true)
    (h : m.InRange) (hg : g.block_num_entries < 2 ^ 64)
    (hg' : g.block_size < 2 ^ 64) (hg'' : g.entry_size < 2 ^ 64) (g₂ : BlockGeometry)
    (file_model_error level_model_error : ℕ) :
    readModel (m.writeModel g) g₂ (new file_model_error level_model_error m.is_level) =
      some ({ g with block_num_entries_recorded := g₂.block_num_entries_recorded },
        m.reloaded file_model_error level_model_error) := by
  have hmin : m.min_key < 2 ^ 64 := h.min_key.trans (by decide)
  have hmax : m.max_key < 2 ^ 64 := h.max_key.trans (by decide)
  rw [writeModel, hlearned, if_neg (by decide), readModel]
  simp only [List.cons_append, List.nil_append, List.append_assoc, readUint64_numeral hg,
    readUint64_numeral hg', readUint64_numeral hg'', readSegments_print h.segment,
    readUint64_numeral hmin, readUint64_numeral hmax, readUint64_numeral h.size,
    readUint64_numeral h.level, readUint64_numeral h.cost, readPairs_print h.accumulated,
    Option.bind_eq_bind, Option.bind_some]
  rfl

/-! ### Predictions of a model read back -/

/-- The interval predicted for `key` contains position `p`. -/
def Contains (m : LearnedIndexData) (key : Bytes) (p : ℕ) : Prop :=
  ∃ lower upper, m.getPosition key = some (lower, upper) ∧ lower ≤ p ∧ p ≤ upper

/-- The segment that `GetPosition` finds for `key`. -/
def segmentOf (m : LearnedIndexData) (key : Bytes) : Segment :=
  m.searchedSegment (sliceToInteger key)

/-- The position of the trained key `i`: a level model is trained on two keys for each file. -/
def position (m : LearnedIndexData) (i : ℕ) : ℕ := if m.is_level then i / 2 else i

section

variable {m : LearnedIndexData} {key : Bytes} {p : ℕ}

/-- **When an interval contains a position.** -/
theorem contains_iff (he : 0 ≤ m.error) (hp : p < m.size) :
    m.Contains key p ↔ (1 < m.string_segments.length ∧ m.min_key ≤ sliceToInteger key ∧
        sliceToInteger key ≤ m.max_key) ∧
      m.predicted (m.segmentOf key) (sliceToInteger key) - m.error < p + 1 ∧
      (p : ℚ) - 1 < m.predicted (m.segmentOf key) (sliceToInteger key) + m.error := by
  by_cases hin : 1 < m.string_segments.length ∧ m.min_key ≤ sliceToInteger key ∧
      sliceToInteger key ≤ m.max_key
  · obtain ⟨hlen, hmin, hmax⟩ := hin
    have hpos : m.getPosition key =
        m.interval (m.predicted (m.segmentOf key) (sliceToInteger key)) := by
      rw [getPosition, if_neg (not_le.2 hlen), if_neg (not_lt.2 hmax), if_neg (not_lt.2 hmin)]
      rfl
    rw [and_iff_right ⟨hlen, hmin, hmax⟩, ← interval_contains_iff hp, Contains, ← hpos]
    constructor
    · rintro ⟨lower, upper, hint, hlo, hup⟩
      refine ⟨lower, upper, hint, hlo, hup, ?_⟩
      rcases getPosition_range he hint with ⟨rfl, -⟩ | ⟨-, hlt⟩ <;> omega
    · rintro ⟨lower, upper, hint, hlo, hup, -⟩
      exact ⟨lower, upper, hint, hlo, hup⟩
  · -- outside the bounds the interval is empty
    refine iff_of_false ?_ fun h => hin h.1
    rintro ⟨lower, upper, hint, hlo, -⟩
    rw [getPosition] at hint
    by_cases hlen : m.string_segments.length ≤ 1
    · rw [if_pos hlen] at hint
      cases hint
    by_cases hmax : sliceToInteger key > m.max_key
    · simp only [if_neg hlen, if_pos hmax, Option.some.injEq, Prod.mk.injEq] at hint
      omega
    by_cases hmin : sliceToInteger key < m.min_key
    · simp only [if_neg hlen, if_neg hmax, if_pos hmin, Option.some.injEq, Prod.mk.injEq] at hint
      omega
    exact hin ⟨by omega, by omega, by omega⟩

/-- What holds of a model that was trained on `keys`: its segments start at keys, and its numbers
are in the range of their machine types; the bounds are results of `atoll`. -/
structure TrainedOn (m : LearnedIndexData) (keys : List Bytes) : Prop where
  learned : m.learned = true
  error : 0 ≤ m.error
  start : ∀ s ∈ m.string_segments, ∃ key ∈ keys, s.x = sliceToInteger key
  min_key : m.min_key < 2 ^ 63
  max_key : m.max_key < 2 ^ 63
  size : m.size = keys.length
  size_lt : m.size < 2 ^ 64
  level : m.level < 2 ^ 64
  cost : m.cost < 2 ^ 64
  accumulated : ∀ p ∈ m.num_entries_accumulated, p.1 < 2 ^ 64

variable {keys : List Bytes}

theorem position_le (m : LearnedIndexData) (i : ℕ) : m.position i ≤ i := by
  rw [position]
  split_ifs
  · exact Nat.div_le_self i 2
  · exact le_rfl

theorem TrainedOn.inRange (h : m.TrainedOn keys)
    (hin : ∀ i, ∀ hi : i < keys.length, m.Contains keys[i] (m.position i)) : m.InRange := by
  refine ⟨fun s hs => ?_, h.min_key, h.max_key, h.size_lt, h.level, h.cost, h.accumulated⟩
  obtain ⟨key, hkey, hx⟩ := h.start s hs
  obtain ⟨i, hi, rfl⟩ := List.getElem_of_mem hkey
  have hp : m.position i < m.size := by
    rw [h.size]; exact (m.position_le i).trans_lt hi
  obtain ⟨⟨-, -, hle⟩, -⟩ := (contains_iff h.error hp).1 (hin i hi)
  rw [hx]
  exact hle.trans_lt h.max_key

theorem segmentOf_reloaded (hlen : 1 < m.string_segments.length) (fe le : ℕ) (key : Bytes) :
    (m.reloaded fe le).segmentOf key = roundSegment (m.segmentOf key) := by
  have hget : ∀ i < m.string_segments.length,
      (m.string_segments.map roundSegment).getD i ⟨0, 0, 0⟩ =
        roundSegment (m.string_segments.getD i ⟨0, 0, 0⟩) := by
    intro i hi
    rw [List.getD_eq_getElem _ _ (by rwa [List.length_map]), List.getElem_map,
      List.getD_eq_getElem _ _ hi]
  have hx : ∀ i, ((m.string_segments.map roundSegment).getD i ⟨0, 0, 0⟩).x =
      (m.string_segments.getD i ⟨0, 0, 0⟩).x := by
    intro i
    by_cases hi : i < m.string_segments.length
    · rw [hget i hi, roundSegment]
    · rw [List.getD_eq_default _ _ (by rw [List.length_map]; omega),
        List.getD_eq_default _ _ (by omega)]
  have hbound := (Bisect.bracket_spec (p := fun mid =>
    !decide (sliceToInteger key < (m.string_segments.getD mid ⟨0, 0, 0⟩).x))
    (show 0 < m.string_segments.length - 1 by omega)).2.1
  simp only [segmentOf, searchedSegment, reloaded, hx, List.length_map]
  rw [hget _ (by omega)]

/-- **When a saved model is as good as the original.**  A model whose intervals contain the position
of every key it was trained on is written and read into a fresh object.  The intervals of the object
contain these positions exactly if the printed coefficients predict each of them within the error
configured for the reader, rounded outwards. -/
theorem readModel_contains_iff (m : LearnedIndexData) (keys : List Bytes) (g g₂ : BlockGeometry)
    (file_model_error level_model_error : ℕ) (hm : m.TrainedOn keys)
    (hg : g.block_num_entries < 2 ^ 64 ∧ g.block_size < 2 ^ 64 ∧ g.entry_size < 2 ^ 64)
    (hin : ∀ i, ∀ hi : i < keys.length, m.Contains keys[i] (m.position i)) :
    ∃ g' m₂, readModel (m.writeModel g) g₂ (new file_model_error level_model_error m.is_level) =
        some (g', m₂) ∧
      ((∀ i, ∀ hi : i < keys.length, m₂.Contains keys[i] (m.position i)) ↔
        ∀ i, ∀ hi : i < keys.length,
          let e : ℚ := (if m.is_level then level_model_error else file_model_error : ℕ)
          let r := m.predicted (roundSegment (m.segmentOf keys[i])) (sliceToInteger keys[i])
          r - e < m.position i + 1 ∧ (m.position i : ℚ) - 1 < r + e) := by
  refine ⟨_, _, readModel_writeModel hm.learned (hm.inRange hin) hg.1 hg.2.1 hg.2.2 g₂ _ _,
    forall_congr' fun i => forall_congr' fun hi => ?_⟩
  have hp : m.position i < m.size := by
    rw [hm.size]; exact (m.position_le i).trans_lt hi
  obtain ⟨⟨hlen, hmin, hmax⟩, -⟩ := (contains_iff hm.error hp).1 (hin i hi)
  have herror : (m.reloaded file_model_error level_model_error).error =
      ((if m.is_level then level_model_error else file_model_error : ℕ) : ℚ) := by
    rw [reloaded, new]
    simp only [Nat.cast_ite]
  have hp₂ : m.position i < (m.reloaded file_model_error level_model_error).size := hp
  rw [contains_iff (by rw [herror]; exact Nat.cast_nonneg _) hp₂, segmentOf_reloaded hlen, herror,
    and_iff_right ⟨by simpa [reloaded] using hlen, hmin, hmax⟩]
  rfl

variable {m' : LearnedIndexData} {awaiting : ℕ → Bool}

/-- Training touches neither the collected keys nor the members that only model files use, and
training without segments leaves an earlier model in place. -/
theorem learn_frame {success : Bool}
    (h : m.learn awaiting = some (m', success)) :
    (m'.level = m.level ∧ m'.cost = m.cost ∧
      m'.num_entries_accumulated = m.num_entries_accumulated) ∧
    m'.string_keys = m.string_keys ∧ m'.filled = m.filled ∧
    (success = false → m'.learned = m.learned) := by
  obtain ⟨-, segs, -, -, rfl⟩ := learn_some h
  refine ⟨⟨rfl, rfl, rfl⟩, rfl, rfl, ?_⟩
  rintro rfl
  exact Bool.or_false _

/-- **Learning gives such a model.** -/
theorem trainedOn_of_learn
    (hkeys : KeyList m.string_keys) (he : 0 < m.error) (hlevel : m.level < 2 ^ 64)
    (hcost : m.cost < 2 ^ 64) (hacc : ∀ p ∈ m.num_entries_accumulated, p.1 < 2 ^ 64)
    (h : m.learn awaiting = some (m', true)) : m'.TrainedOn m.string_keys := by
  obtain ⟨hfit, hlearned, herr, -, -⟩ := fitted_of_learn hkeys he h
  obtain ⟨⟨hl, hc, ha⟩, -⟩ := learn_frame h
  have hpos := hfit.pos
  have hlen := hkeys.length_le
  have hlt : ∀ i, i < m.string_keys.length → keyValue m.string_keys i < 2 ^ 63 :=
    fun i hi => (hkeys.getD hi).2
  have hkey : ∀ i, i < m.string_keys.length →
      ∃ key ∈ m.string_keys, keyValue m.string_keys i = sliceToInteger key := by
    intro i hi
    refine ⟨m.string_keys[i], List.getElem_mem hi, ?_⟩
    rw [← hkeys.sliceToInteger_getD hi, List.getD_eq_getElem _ _ hi]
  refine ⟨hlearned, by rw [herr]; exact he.le, fun s hs => ?_, ?_, ?_, hfit.size, ?_,
    by rw [hl]; exact hlevel, by rw [hc]; exact hcost, by rw [ha]; exact hacc⟩
  · obtain ⟨segs, hsegs, ht⟩ := hfit.segments
    rw [hsegs] at hs
    rcases List.mem_append.1 hs with hs | hs
    · obtain ⟨i, hi, hx, -⟩ := ht.starts s hs
      rw [hx]
      exact hkey i hi
    · rw [List.mem_singleton.1 hs]
      exact hkey _ (by omega)
  · rw [hfit.min_key]; exact hlt 0 hpos
  · rw [hfit.max_key]; exact hlt _ (by omega)
  · rw [hfit.size]; omega

theorem contains_of_learn
    (hfile : m.is_level = false) (hkeys : KeyList m.string_keys) (he : 0 < m.error)
    (h : m.learn awaiting = some (m', true)) :
    ∀ i, ∀ hi : i < m.string_keys.length, m'.Contains m.string_keys[i] (m'.position i) := by
  obtain ⟨hfit, -, -, hlev, -⟩ := fitted_of_learn hkeys he h
  have hfile' : m'.is_level = false := hlev.trans hfile
  intro i hi
  have hkey : sliceToInteger m.string_keys[i] = keyValue m.string_keys i := by
    rw [← hkeys.sliceToInteger_getD hi, List.getD_eq_getElem _ _ hi]
  obtain ⟨lower, upper, hint, hlo, hup, -⟩ := hfit.file_contains hfile' hi hkey
  rw [position, hfile', if_neg Bool.false_ne_true]
  exact ⟨lower, upper, hint, hlo, hup⟩

end

/-! The keys `01`, `02`, `03`, `04` and `50`, trained with error 3 and read with error 1. -/

namespace ReadWithSmallerError

/-- The keys. -/
def keys : List Bytes := [[48, 49], [48, 50], [48, 51], [48, 52], [53, 48]]

/-- The model before training. -/
def data : LearnedIndexData := { new 3 3 false with string_keys := keys }

/-- The model after training. -/
def model : LearnedIndexData :=
  { data with
    learned := true, string_segments := [⟨1, 7 / 97, 38 / 97⟩, ⟨50, 0, 0⟩], min_key := 1
    max_key := 50, size := 5 }

theorem learn_eq : data.learn (fun _ => false) = some (model, true) := by decide +kernel

theorem keyList : KeyList data.string_keys := ⟨by decide +kernel, by decide +kernel⟩

theorem trainedOn : model.TrainedOn keys :=
  trainedOn_of_learn keyList (by decide +kernel) (by decide) (by decide) (by decide) learn_eq

theorem contains : ∀ i, ∀ hi : i < keys.length, model.Contains keys[i] (model.position i) :=
  contains_of_learn (m := data) rfl keyList (by decide +kernel) learn_eq

/-- The geometry in force at the time of writing. -/
def geometry : BlockGeometry := ⟨5, 117, 23, true⟩

end ReadWithSmallerError

open ReadWithSmallerError in
/-- The object that was read predicts `(0, 2)` for the key `04` at position 3. -/
theorem readModel_loses_key :
    data.learn (fun _ => false) = some (model, true) ∧ model.TrainedOn keys ∧
      (∀ i, ∀ hi : i < keys.length, model.Contains keys[i] (model.position i)) ∧
      ∃ g' m₂, readModel (model.writeModel geometry) ⟨0, 0, 0, false⟩ (new 1 1 false) =
          some (g', m₂) ∧
        m₂.getPosition [48, 52] = some (0, 2) ∧ ¬ m₂.Contains [48, 52] (model.position 3) := by
  have hpos : (model.reloaded 1 1).getPosition [48, 52] = some (0, 2) := by decide +kernel
  refine ⟨learn_eq, trainedOn, contains, { geometry with block_num_entries_recorded := false },
    model.reloaded 1 1, by decide +kernel, hpos, ?_⟩
  rintro ⟨lower, upper, hint, -, hup⟩
  rw [hpos, Option.some.injEq, Prod.mk.injEq] at hint
  have hp : model.position 3 = 3 := rfl
  omega

open ReadWithSmallerError in
/-- The condition for this model, and for a reader with error 1. -/
theorem readModel_contains_iff_five_keys :
    model.TrainedOn keys ∧
      ∃ g' m₂, readModel (model.writeModel geometry) ⟨0, 0, 0, false⟩ (new 1 1 false) =
          some (g', m₂) ∧
        ((∀ i, ∀ hi : i < keys.length, m₂.Contains keys[i] (model.position i)) ↔
          ∀ i, ∀ hi : i < keys.length,
            let e : ℚ := (if model.is_level then 1 else 1 : ℕ)
            let r := model.predicted (roundSegment (model.segmentOf keys[i]))
              (sliceToInteger keys[i])
            r - e < model.position i + 1 ∧ (model.position i : ℚ) - 1 < r + e) :=
  ⟨trainedOn, readModel_contains_iff model keys geometry _ 1 1 trainedOn (by decide) contains⟩

end LearnedIndexData

end Bourbon
