import Mathlib.Data.List.Induction
import Mathlib.Data.Rat.Defs
import Bourbon.Db.Version

/-!
# The inputs of a compaction

`db/version_set.cc`: a compaction of a level merges some of its files, `inputs0`, and the files of
the next level that overlap them, `inputs1`.  `pickCompaction` starts from one file that is due,
`compactRange` from the files in a given range; `setupOtherInputs` adds files that share the largest
user key, takes the overlapping files of the next level, and adds further files of the level if
this does not add files of the next level.

* `Chosen` : what holds of the inputs of every compaction;
* `pickCompaction_spec`, `compactRange_spec` : it holds for automatic and for manual compactions,
  and the inputs of an automatic compaction leave no gap between them (`Gapless`);
* `Chosen.apart_next` : where the files are that are not inputs.
-/

namespace Bourbon

open List Option

variable {K : Type*} [LinearOrder K]

/-- `GetRange`; there is no range of no files. -/
def getRange : List (FileMetaData K) → Option (InternalKey K × InternalKey K)
  | [] => none
  | f :: inputs =>
    some (inputs.foldl (fun smallest g => if g.smallest < smallest then g.smallest else smallest)
        f.smallest,
      inputs.foldl (fun largest g => if largest < g.largest then g.largest else largest) f.largest)

/-- `FindLargestKey`. -/
def findLargestKey : List (FileMetaData K) → Option (InternalKey K)
  | [] => none
  | f :: files =>
    some (files.foldl (fun largest g => if largest < g.largest then g.largest else largest)
      f.largest)

/-- `FindSmallestBoundaryFile`. -/
def findSmallestBoundaryFile (level_files : List (FileMetaData K)) (largest_key : InternalKey K) :
    Option (FileMetaData K) :=
  level_files.foldl (fun boundary f =>
    if largest_key < f.smallest ∧ f.smallest.user_key = largest_key.user_key then
      match boundary with
      | none => some f
      | some g => if f.smallest < g.smallest then some f else some g
    else boundary) none

/-- The files that `AddBoundaryInputs` adds behind `largest_key`. -/
def boundaryFiles (level_files : List (FileMetaData K)) :
    ℕ → InternalKey K → List (FileMetaData K)
  | 0, _ => []
  | fuel + 1, largest_key =>
    match findSmallestBoundaryFile level_files largest_key with
    | none => []
    | some f => f :: boundaryFiles level_files fuel f.largest

/-- `AddBoundaryInputs`. -/
def addBoundaryInputs (level_files compaction_files : List (FileMetaData K)) :
    List (FileMetaData K) :=
  match findLargestKey compaction_files with
  | none => compaction_files
  | some largest_key =>
    compaction_files ++ boundaryFiles level_files (level_files.length + 1) largest_key

/-- `ExpandedCompactionByteSizeLimit`. -/
def expandedCompactionByteSizeLimit (max_file_size : ℕ) : ℕ := 25 * max_file_size

/-- `MaxFileSizeForLevel`. -/
def maxFileSizeForLevel (max_file_size : ℕ) (_level : ℕ) : ℕ := max_file_size

/-- The members of `Compaction` that describe its inputs. -/
structure Compaction (K : Type*) where
  level : ℕ
  inputs0 : List (FileMetaData K)
  inputs1 : List (FileMetaData K)
  grandparents : List (FileMetaData K)
  /-- The new compaction pointer of the level. -/
  largest : InternalKey K

/-- The part of `SetupOtherInputs` that tries to grow the inputs in `level`. -/
def expandInputs (max_file_size : ℕ) (v : Version K) (level : ℕ)
    (inputs0 inputs1 : List (FileMetaData K)) (all_start all_limit : InternalKey K) :
    List (FileMetaData K) × List (FileMetaData K) :=
  let expanded0 := addBoundaryInputs (v level)
    (getOverlappingInputs v level (some all_start) (some all_limit))
  if inputs1 ≠ [] ∧ inputs0.length < expanded0.length ∧
      totalFileSize inputs1 + totalFileSize expanded0 <
        expandedCompactionByteSizeLimit max_file_size then
    match getRange expanded0 with
    | none => (inputs0, inputs1)
    | some (new_start, new_limit) =>
      let expanded1 := getOverlappingInputs v (level + 1) (some new_start) (some new_limit)
      if expanded1.length = inputs1.length then (expanded0, expanded1) else (inputs0, inputs1)
  else (inputs0, inputs1)

/-- `SetupOtherInputs`. -/
def setupOtherInputs (max_file_size : ℕ) (v : Version K) (level : ℕ)
    (inputs0 : List (FileMetaData K)) : Option (Compaction K) := do
  let inputs0 := addBoundaryInputs (v level) inputs0
  let (smallest, largest) ← getRange inputs0
  let inputs1 := getOverlappingInputs v (level + 1) (some smallest) (some largest)
  let (all_start, all_limit) ← getRange (inputs0 ++ inputs1)
  let (inputs0, inputs1) := expandInputs max_file_size v level inputs0 inputs1 all_start all_limit
  let (_, largest) ← getRange inputs0
  let (all_start, all_limit) ← getRange (inputs0 ++ inputs1)
  let grandparents := if level + 2 < kNumLevels then
    getOverlappingInputs v (level + 2) (some all_start) (some all_limit) else []
  some ⟨level, inputs0, inputs1, grandparents, largest⟩

/-- Number of level-0 files that starts a compaction. -/
def kL0CompactionTrigger : ℕ := 4

/-- `MaxBytesForLevel`. -/
def maxBytesForLevel (level : ℕ) : ℕ := 10 * 1048576 * 10 ^ (level - 1)

/-- The score of a level in `Finalize`. -/
def compactionScore (v : Version K) (level : ℕ) : ℚ :=
  if level = 0 then (v level).length / kL0CompactionTrigger
  else totalFileSize (v level) / maxBytesForLevel level

/-- `Finalize`: `compaction_level_` and `compaction_score_`. -/
def finalize (v : Version K) : ℕ × ℚ :=
  (List.range (kNumLevels - 1)).foldl (fun best level =>
    if best.2 < compactionScore v level then (level, compactionScore v level) else best) (0, -1)

/-- The file with which `PickCompaction` starts, and its level. -/
def pickFile (v : Version K) (compact_pointer : ℕ → Option (InternalKey K))
    (file_to_compact : Option (ℕ × FileMetaData K)) : Option (ℕ × FileMetaData K) :=
  let (level, score) := finalize v
  if 1 ≤ score then
    -- the first file behind the compaction pointer, or the first file
    (((v level).find? fun f => (compact_pointer level).all fun p => p < f.largest).or
      (v level).head?).map fun f => (level, f)
  else file_to_compact

/-- `PickCompaction`. -/
def pickCompaction (max_file_size : ℕ) (v : Version K)
    (compact_pointer : ℕ → Option (InternalKey K))
    (file_to_compact : Option (ℕ × FileMetaData K)) : Option (Compaction K) :=
  match pickFile v compact_pointer file_to_compact with
  | none => none
  | some (level, f) =>
    setupOtherInputs max_file_size v level
      (if level = 0 then getOverlappingInputs v 0 (some f.smallest) (some f.largest) else [f])

/-- The first files up to a total size. -/
def truncateInputs (limit : ℕ) : ℕ → List (FileMetaData K) → List (FileMetaData K)
  | _, [] => []
  | total, f :: inputs =>
    if limit ≤ total + f.file_size then [f]
    else f :: truncateInputs limit (total + f.file_size) inputs

/-- `VersionSet::CompactRange`. -/
def compactRange (max_file_size : ℕ) (v : Version K) (level : ℕ)
    (start limit : Option (InternalKey K)) : Option (Compaction K) :=
  let inputs := getOverlappingInputs v level start limit
  if inputs = [] then none
  else
    setupOtherInputs max_file_size v level
      (if 0 < level then truncateInputs (maxFileSizeForLevel max_file_size level) 0 inputs
        else inputs)

/-- `IsTrivialMove`. -/
def Compaction.isTrivialMove (c : Compaction K) (max_file_size : ℕ) : Bool :=
  c.inputs0.length = 1 && c.inputs1.length = 0 &&
    totalFileSize c.grandparents ≤ maxGrandParentOverlapBytes max_file_size

/-! ### Ranges -/

/-- The smallest range that contains the files. -/
structure IsRange (files : List (FileMetaData K)) (smallest largest : InternalKey K) : Prop where
  smallest_mem : ∃ f ∈ files, f.smallest = smallest
  smallest_le : ∀ f ∈ files, smallest ≤ f.smallest
  largest_mem : ∃ f ∈ files, f.largest = largest
  le_largest : ∀ f ∈ files, f.largest ≤ largest

theorem foldl_least {α β : Type*} [LinearOrder β] (r : α → β) (l : List α) (init : β) :
    l.foldl (fun m x => if r x < m then r x else m) init ≤ init ∧
      (∀ x ∈ l, l.foldl (fun m x => if r x < m then r x else m) init ≤ r x) ∧
      (l.foldl (fun m x => if r x < m then r x else m) init = init ∨
        ∃ x ∈ l, r x = l.foldl (fun m x => if r x < m then r x else m) init) := by
  induction l generalizing init with
  | nil => exact ⟨le_rfl, fun x hx => absurd hx not_mem_nil, Or.inl rfl⟩
  | cons y l ih =>
    obtain ⟨h1, h2, h3⟩ := ih (if r y < init then r y else init)
    have hinit : (if r y < init then r y else init) ≤ init := by
      split_ifs with h
      · exact h.le
      · exact le_rfl
    have hy : (if r y < init then r y else init) ≤ r y := by
      split_ifs with h
      · exact le_rfl
      · exact not_lt.1 h
    rw [foldl_cons]
    refine ⟨h1.trans hinit, fun x hx => ?_, ?_⟩
    · rcases mem_cons.1 hx with rfl | hx
      · exact h1.trans hy
      · exact h2 x hx
    · rcases h3 with h3 | ⟨x, hx, h3⟩
      · by_cases h : r y < init
        · rw [if_pos h] at h3 ⊢
          exact Or.inr ⟨y, mem_cons_self, h3.symm⟩
        · rw [if_neg h] at h3 ⊢
          exact Or.inl h3
      · exact Or.inr ⟨x, mem_cons_of_mem y hx, h3⟩

variable {files : List (FileMetaData K)} {smallest largest : InternalKey K}

theorem getRange_spec
    (h : getRange files = some (smallest, largest)) : IsRange files smallest largest := by
  cases files with
  | nil => cases h
  | cons f files =>
    obtain ⟨hs1, hs2, hs3⟩ := foldl_least FileMetaData.smallest files f.smallest
    obtain ⟨hl1, hl2, hl3⟩ := foldl_least (fun g => OrderDual.toDual g.largest) files
      (OrderDual.toDual f.largest)
    simp only [getRange, Option.some.injEq, Prod.mk.injEq] at h
    obtain ⟨rfl, rfl⟩ := h
    refine ⟨?_, fun g hg => ?_, ?_, fun g hg => ?_⟩
    · rcases hs3 with hs3 | ⟨x, hx, hs3⟩
      · exact ⟨f, mem_cons_self, hs3.symm⟩
      · exact ⟨x, mem_cons_of_mem f hx, hs3⟩
    · rcases mem_cons.1 hg with rfl | hg
      · exact hs1
      · exact hs2 g hg
    · rcases hl3 with hl3 | ⟨x, hx, hl3⟩
      · exact ⟨f, mem_cons_self, hl3.symm⟩
      · exact ⟨x, mem_cons_of_mem f hx, hl3⟩
    · rcases mem_cons.1 hg with rfl | hg
      · exact hl1
      · exact hl2 g hg

theorem findLargestKey_eq (files : List (FileMetaData K)) :
    findLargestKey files = (getRange files).map Prod.snd := by
  cases files <;> rfl

theorem getRange_isSome (h : files ≠ []) :
    ∃ smallest largest, getRange files = some (smallest, largest) := by
  obtain ⟨f, rest, rfl⟩ := exists_cons_of_ne_nil h
  exact ⟨_, _, rfl⟩

/-! ### Boundary files -/

/-- Every file of a version holds a range, and the files of a level above 0 are ordered. -/
structure WellFormed (v : Version K) : Prop where
  nonempty : ∀ level, ∀ f ∈ v level, f.smallest ≤ f.largest
  ordered : ∀ level, level ≠ 0 → Ordered (v level)

/-- Every other file of the level ends before all inputs begin, or begins behind all of them. -/
def Convex (files inputs : List (FileMetaData K)) : Prop :=
  ∀ g ∈ files, g ∉ inputs →
    (∀ f ∈ inputs, g.largest < f.smallest) ∨ ∀ f ∈ inputs, f.largest < g.smallest

/-- Every other file of the level ends before all inputs begin, or begins behind all user keys of
the inputs: for no user key, the inputs hold newer entries than the files that stay. -/
def Settled (files inputs : List (FileMetaData K)) : Prop :=
  ∀ g ∈ files, g ∉ inputs →
    (∀ f ∈ inputs, g.largest < f.smallest) ∨
      ∀ f ∈ inputs, f.largest.user_key < g.smallest.user_key

/-- A boundary file begins behind the key, with the same user key. -/
def IsBoundary (key : InternalKey K) (f : FileMetaData K) : Prop :=
  key < f.smallest ∧ f.smallest.user_key = key.user_key

theorem findSmallestBoundaryFile_spec (files : List (FileMetaData K)) (key : InternalKey K) :
    (findSmallestBoundaryFile files key = none → ∀ f ∈ files, ¬ IsBoundary key f) ∧
    ∀ f, findSmallestBoundaryFile files key = some f → f ∈ files ∧ IsBoundary key f ∧
      ∀ g ∈ files, IsBoundary key g → f.smallest ≤ g.smallest := by
  induction files using List.reverseRecOn with
  | nil => exact ⟨fun _ f hf => absurd hf not_mem_nil, fun f hf => (by cases hf)⟩
  | append_singleton files x ih =>
    obtain ⟨hnone, hsome⟩ := ih
    rw [findSmallestBoundaryFile, foldl_append, foldl_cons, foldl_nil]
    rw [findSmallestBoundaryFile] at hnone hsome
    simp only [forall_mem_append, forall_mem_singleton]
    simp only [mem_append, mem_singleton]
    by_cases hx : key < x.smallest ∧ x.smallest.user_key = key.user_key
    · rw [if_pos hx]
      split
      · rename_i hb
        refine ⟨fun h => (by cases h), fun f hf => ?_⟩
        obtain rfl := some.inj hf
        exact ⟨Or.inr rfl, hx, fun g hg hgb => absurd hgb (hnone hb g hg), fun _ => le_rfl⟩
      · rename_i b hb
        obtain ⟨hmem, hbb, hmin⟩ := hsome b hb
        refine ⟨fun h => ?_, fun f hf => ?_⟩
        · split_ifs at h
        · split_ifs at hf with hlt
          · obtain rfl := some.inj hf
            exact ⟨Or.inr rfl, hx, fun g hg hgb => hlt.le.trans (hmin g hg hgb), fun _ => le_rfl⟩
          · obtain rfl := some.inj hf
            exact ⟨Or.inl hmem, hbb, hmin, fun _ => not_lt.1 hlt⟩
    · rw [if_neg hx]
      refine ⟨fun h => ⟨hnone h, hx⟩, fun f hf => ?_⟩
      obtain ⟨hmem, hfb, hmin⟩ := hsome f hf
      exact ⟨Or.inl hmem, hfb, hmin, fun h => absurd h hx⟩

variable {inputs : List (FileMetaData K)} {key : InternalKey K}

theorem addBoundaryInputs_of_settled
    (hne : ∀ f ∈ files, f.smallest ≤ f.largest) (hsub : ∀ f ∈ inputs, f ∈ files)
    (h : Settled files inputs) : addBoundaryInputs files inputs = inputs := by
  rw [addBoundaryInputs, findLargestKey_eq]
  cases hr : getRange inputs with
  | none => rfl
  | some r =>
    obtain ⟨f₀, hf₀, hlargest⟩ := (getRange_spec hr).largest_mem
    have hmax := (getRange_spec hr).le_largest
    simp only [map_some]
    rw [boundaryFiles]
    cases hfind : findSmallestBoundaryFile files r.2 with
    | none => exact append_nil inputs
    | some g =>
      obtain ⟨hg, hb, -⟩ := (findSmallestBoundaryFile_spec files r.2).2 g hfind
      exfalso
      by_cases hin : g ∈ inputs
      · exact absurd ((hne g hg).trans (hmax g hin)) (not_le.2 hb.1)
      · rcases h g hg hin with hbefore | hafter
        · have := (hne g hg).trans_lt ((hbefore f₀ hf₀).trans_le (hne f₀ (hsub f₀ hf₀)))
          rw [hlargest] at this
          exact absurd this (not_lt.2 hb.1.le)
        · have := hafter f₀ hf₀
          rw [hlargest, hb.2] at this
          exact lt_irrefl _ this

/-- The files that follow a key in the level, as long as each begins with the user key that the one
before it ends with. -/
def boundaryRun (key : InternalKey K) : List (FileMetaData K) → List (FileMetaData K)
  | [] => []
  | f :: files =>
    if f.smallest.user_key = key.user_key then f :: boundaryRun f.largest files else []

section

variable {before after : List (FileMetaData K)} {f : FileMetaData K}

theorem mem_after (hord : Ordered (before ++ f :: after))
    (hne : ∀ g ∈ before ++ f :: after, g.smallest ≤ g.largest) {g : FileMetaData K}
    (hg : g ∈ before ++ f :: after) (hlt : f.largest < g.smallest) : g ∈ after := by
  rcases mem_append.1 hg with hg' | hg'
  · have hf := (pairwise_append.1 hord).2.2 g hg' f mem_cons_self
    exact absurd (((hne g hg).trans_lt hf).trans_le (hne f (by simp))) hlt.asymm
  · rcases mem_cons.1 hg' with rfl | hg'
    · exact absurd hlt (hne g hg).not_gt
    · exact hg'

theorem lt_of_mem_after (hord : Ordered (before ++ f :: after)) {g : FileMetaData K}
    (hg : g ∈ after) : f.largest < g.smallest :=
  (pairwise_cons.1 (pairwise_append.1 hord).2.1).1 g hg

/-- Only the next file of the level can be the boundary file. -/
theorem findSmallestBoundaryFile_eq (hord : Ordered (before ++ f :: after))
    (hne : ∀ g ∈ before ++ f :: after, g.smallest ≤ g.largest) :
    findSmallestBoundaryFile (before ++ f :: after) f.largest =
      after.head?.filter fun g => g.smallest.user_key = f.largest.user_key := by
  obtain ⟨hnone, hsome⟩ := findSmallestBoundaryFile_spec (before ++ f :: after) f.largest
  cases hfind : findSmallestBoundaryFile (before ++ f :: after) f.largest with
  | none =>
    cases after with
    | nil => rfl
    | cons g rest =>
      have hother := hnone hfind g (by simp)
      rw [List.head?_cons, filter_some, if_neg]
      exact fun heq => hother ⟨lt_of_mem_after hord mem_cons_self, of_decide_eq_true heq⟩
  | some h =>
    obtain ⟨hh, hb, hmin⟩ := hsome h hfind
    have hin := mem_after hord hne hh hb.1
    cases after with
    | nil => cases hin
    | cons g rest =>
      have hg : g ∈ before ++ f :: g :: rest := by simp
      have hlt := lt_of_mem_after hord mem_cons_self
      have hrest : ∀ h ∈ rest, g.smallest < h.smallest := fun h hh =>
        (hne g hg).trans_lt (lt_of_mem_after (append_cons before f (g :: rest) ▸ hord) hh)
      have hle : g.smallest ≤ h.smallest := by
        rcases mem_cons.1 hin with rfl | hin
        · exact le_refl _
        · exact (hrest h hin).le
      have huser : g.smallest.user_key = f.largest.user_key :=
        le_antisymm ((InternalKey.user_key_le hle).trans hb.2.le) (InternalKey.user_key_le hlt.le)
      have hsame : h = g := (mem_cons.1 hin).resolve_right fun hin =>
        (hmin g hg ⟨hlt, huser⟩).not_gt (hrest h hin)
      rw [List.head?_cons, filter_some, if_pos (decide_eq_true huser), hsame]

theorem boundaryFiles_eq_run (hord : Ordered (before ++ f :: after))
    (hne : ∀ g ∈ before ++ f :: after, g.smallest ≤ g.largest) (fuel : ℕ)
    (hfuel : after.length < fuel) :
    boundaryFiles (before ++ f :: after) fuel f.largest = boundaryRun f.largest after := by
  induction after generalizing before f fuel with
  | nil =>
    obtain ⟨fuel, rfl⟩ := Nat.exists_eq_add_of_lt hfuel
    rw [boundaryFiles, findSmallestBoundaryFile_eq hord hne]
    rfl
  | cons g rest ih =>
    obtain ⟨fuel, rfl⟩ := Nat.exists_eq_add_of_lt hfuel
    rw [boundaryRun, boundaryFiles, findSmallestBoundaryFile_eq hord hne, List.head?_cons,
      filter_some]
    by_cases huser : g.smallest.user_key = f.largest.user_key
    · rw [if_pos huser, if_pos (decide_eq_true huser)]
      rw [append_cons before f (g :: rest)] at hord hne ⊢
      exact congrArg (g :: ·) (ih hord hne _ (by rw [length_cons]; omega))
    · rw [if_neg huser, if_neg (by simpa using huser)]

/-- The run ends before the first file that begins with a new user key. -/
theorem boundaryRun_spec (hord : Ordered (f :: after))
    (hne : ∀ g ∈ after, g.smallest ≤ g.largest) :
    ∃ rest, after = boundaryRun f.largest after ++ rest ∧
      ∀ l ∈ f :: boundaryRun f.largest after, ∀ g ∈ rest,
        l.largest.user_key < g.smallest.user_key := by
  induction after generalizing f with
  | nil => exact ⟨[], rfl, nofun⟩
  | cons g rest ih =>
    obtain ⟨hlt, hord⟩ := pairwise_cons.1 hord
    have hle := hne g mem_cons_self
    have hg := InternalKey.user_key_le (hlt g mem_cons_self).le
    rw [boundaryRun]
    by_cases huser : g.smallest.user_key = f.largest.user_key
    · obtain ⟨rest', hrest, hbehind⟩ := ih hord fun h hh => hne h (mem_cons_of_mem g hh)
      rw [if_pos huser]
      refine ⟨rest', congrArg (g :: ·) hrest, fun l hl h hh => ?_⟩
      rcases mem_cons.1 hl with rfl | hl
      · exact (hg.trans (InternalKey.user_key_le hle)).trans_lt (hbehind g mem_cons_self h hh)
      · exact hbehind l hl h hh
    · rw [if_neg huser]
      refine ⟨g :: rest, rfl, fun l hl h hh => ?_⟩
      rw [mem_singleton.1 hl]
      refine (lt_of_le_of_ne hg (Ne.symm huser)).trans_le ?_
      rcases mem_cons.1 hh with rfl | hh
      · exact le_refl _
      · exact InternalKey.user_key_le (hle.trans ((pairwise_cons.1 hord).1 h hh).le)

end

theorem exists_addBoundaryInputs (hord : Ordered files)
    (hne : ∀ f ∈ files, f.smallest ≤ f.largest) (hinputs : inputs ≠ [])
    (hsub : ∀ f ∈ inputs, f ∈ files) :
    ∃ before f after rest, (files = before ++ f :: after ∧ f ∈ inputs ∧
      (∀ g ∈ inputs, g.largest ≤ f.largest) ∧
      (∀ fuel, files.length < fuel →
        boundaryFiles files fuel f.largest = boundaryRun f.largest after) ∧
      addBoundaryInputs files inputs = inputs ++ boundaryRun f.largest after) ∧
      after = boundaryRun f.largest after ++ rest ∧
      ∀ l ∈ inputs ++ boundaryRun f.largest after, ∀ g ∈ rest,
        l.largest.user_key < g.smallest.user_key := by
  obtain ⟨smallest, key, hrange⟩ := getRange_isSome hinputs
  obtain ⟨f, hf, rfl⟩ := (getRange_spec hrange).largest_mem
  have hmax := (getRange_spec hrange).le_largest
  obtain ⟨before, after, rfl⟩ := append_of_mem (hsub f hf)
  have hrun : ∀ fuel, (before ++ f :: after).length < fuel →
      boundaryFiles (before ++ f :: after) fuel f.largest = boundaryRun f.largest after := by
    intro fuel hfuel
    rw [length_append, length_cons] at hfuel
    exact boundaryFiles_eq_run hord hne fuel (by omega)
  obtain ⟨rest, hrest, huser⟩ := boundaryRun_spec (pairwise_append.1 hord).2.1
    fun g hg => hne g (by simp [hg])
  refine ⟨before, f, after, rest, ⟨rfl, hf, hmax, hrun, ?_⟩, hrest, fun l hl g hg => ?_⟩
  · rw [addBoundaryInputs, findLargestKey_eq, hrange, map_some]
    exact congrArg (inputs ++ ·) (hrun _ (Nat.lt_succ_self _))
  · rcases mem_append.1 hl with hl | hl
    · exact (InternalKey.user_key_le (hmax l hl)).trans_lt (huser f mem_cons_self g hg)
    · exact huser l (mem_cons_of_mem f hl) g hg

theorem addBoundaryInputs_settled (hord : Ordered files)
    (hne : ∀ f ∈ files, f.smallest ≤ f.largest) (hinputs : inputs ≠ [])
    (hsub : ∀ f ∈ inputs, f ∈ files) (hconv : Convex files inputs) (hin : Ordered inputs) :
    (∀ f ∈ addBoundaryInputs files inputs, f ∈ files) ∧
      Settled files (addBoundaryInputs files inputs) ∧
      Ordered (addBoundaryInputs files inputs) := by
  obtain ⟨before, f, after, rest, ⟨rfl, hf, hmax, -, hadd⟩, hrest, huser⟩ :=
    exists_addBoundaryInputs hord hne hinputs hsub
  have hrun : ∀ g ∈ boundaryRun f.largest after, g ∈ after := fun g hg => by
    rw [hrest]
    exact mem_append_left _ hg
  rw [hadd]
  refine ⟨fun g hg => ?_, fun g hg hout => ?_, pairwise_append.2 ⟨hin, ?_, fun a ha b hb =>
    (hmax a ha).trans_lt (lt_of_mem_after hord (hrun b hb))⟩⟩
  · rcases mem_append.1 hg with hg | hg
    · exact hsub g hg
    · simp [hrun g hg]
  · rw [mem_append, not_or] at hout
    rcases hconv g hg hout.1 with hbefore | hafter
    · refine Or.inl fun a ha => ?_
      rcases mem_append.1 ha with ha | ha
      · exact hbefore a ha
      · exact (hbefore f hf).trans_le ((hne f (hsub f hf)).trans
          (lt_of_mem_after hord (hrun a ha)).le)
    · have hg' := mem_after hord hne hg (hafter f hf)
      rw [hrest] at hg'
      have hlast := (mem_append.1 hg').resolve_left hout.2
      exact Or.inr fun a ha => huser a ha g hlast
  · have hafter := (pairwise_cons.1 (pairwise_append.1 hord).2.1).2
    rw [hrest] at hafter
    exact (pairwise_append.1 hafter).1

/-- **`AddBoundaryInputs` adds the run behind the largest input**, and then nothing is left to
add. -/
theorem addBoundaryInputs_eq_run (hord : Ordered files)
    (hne : ∀ f ∈ files, f.smallest ≤ f.largest) (hinputs : inputs ≠ [])
    (hsub : ∀ f ∈ inputs, f ∈ files) :
    (∃ before f after, files = before ++ f :: after ∧ f ∈ inputs ∧
      (∀ g ∈ inputs, g.largest ≤ f.largest) ∧
      (∀ fuel, files.length < fuel →
        boundaryFiles files fuel f.largest = boundaryRun f.largest after) ∧
      addBoundaryInputs files inputs = inputs ++ boundaryRun f.largest after) ∧
    ∃ largest, findLargestKey (addBoundaryInputs files inputs) = some largest ∧
      findSmallestBoundaryFile files largest = none ∧
      ∀ g ∈ files, g ∉ addBoundaryInputs files inputs → ¬ IsBoundary largest g := by
  obtain ⟨before, f, after, rest, hsplit, hrest, huser⟩ :=
    exists_addBoundaryInputs hord hne hinputs hsub
  refine ⟨⟨before, f, after, hsplit⟩, ?_⟩
  obtain ⟨rfl, hf, -, -, hadd⟩ := hsplit
  obtain ⟨smallest, largest, hrange⟩ := getRange_isSome (append_ne_nil_of_left_ne_nil hinputs
    (boundaryRun f.largest after))
  have hmax := (getRange_spec hrange).le_largest
  have hnone : ∀ g ∈ before ++ f :: after, ¬ IsBoundary largest g := by
    intro g hg hb
    have hg' := mem_after hord hne hg ((hmax f (mem_append_left _ hf)).trans_lt hb.1)
    rw [hrest] at hg'
    rcases mem_append.1 hg' with hrun | hlast
    · exact absurd ((hne g hg).trans (hmax g (mem_append_right _ hrun))) hb.1.not_ge
    · obtain ⟨l, hl, rfl⟩ := (getRange_spec hrange).largest_mem
      exact absurd hb.2.symm (huser l hl g hlast).ne
  rw [hadd, findLargestKey_eq, hrange]
  refine ⟨largest, rfl, ?_, fun g hg _ => hnone g hg⟩
  cases hfind : findSmallestBoundaryFile (before ++ f :: after) largest with
  | none => rfl
  | some g =>
    obtain ⟨hg, hb, -⟩ := (findSmallestBoundaryFile_spec _ _).2 g hfind
    exact absurd hb (hnone g hg)

theorem addBoundaryInputs_eq_run_three :
    let file (number : ℕ) (a b : InternalKey ℕ) : FileMetaData ℕ := ⟨number, 1, a, b⟩
    let level := [file 1 ⟨1, 9, .value⟩ ⟨5, 8, .value⟩, file 2 ⟨5, 7, .value⟩ ⟨5, 6, .value⟩,
      file 3 ⟨5, 4, .value⟩ ⟨8, 3, .value⟩]
    ∃ largest, findLargestKey (addBoundaryInputs level (level.take 1)) = some largest ∧
      findSmallestBoundaryFile level largest = none := by
  intro file level
  have hord : Ordered level := by decide
  have hsub : ∀ f ∈ level.take 1, f ∈ level := by decide
  obtain ⟨-, largest, hlargest, hexit, -⟩ :=
    addBoundaryInputs_eq_run hord (by decide) (by decide) hsub
  exact ⟨largest, hlargest, hexit⟩

/-! ### Gaps -/

/-- Every user key between the first and the last one of the files is in the range of a file. -/
def Gapless (s : Set (FileMetaData K)) : Prop :=
  ∀ f ∈ s, ∀ g ∈ s, ∀ u, f.smallest.user_key ≤ u → u ≤ g.largest.user_key → ∃ h ∈ s, h.Holds u

/-- The file meets the span of the files. -/
def Touches (s : Set (FileMetaData K)) (g : FileMetaData K) : Prop :=
  (∃ f ∈ s, f.smallest.user_key ≤ g.largest.user_key) ∧
    ∃ f ∈ s, g.smallest.user_key ≤ f.largest.user_key

theorem gapless_singleton (f : FileMetaData K) : Gapless {f} := by
  rintro _ rfl _ rfl u h1 h2
  exact ⟨_, rfl, h1, h2⟩

variable {s : Set (FileMetaData K)}

theorem Gapless.union {t : Set (FileMetaData K)} (hs : Gapless s) (ht : ∀ g ∈ t, Touches s g) :
    Gapless (s ∪ t) := by
  intro f hf g hg u h1 h2
  by_cases hfirst : ∃ a ∈ s, a.smallest.user_key ≤ u
  · by_cases hlast : ∃ c ∈ s, u ≤ c.largest.user_key
    · obtain ⟨a, ha, hau⟩ := hfirst
      obtain ⟨c, hc, huc⟩ := hlast
      obtain ⟨h, hh, hu⟩ := hs a ha c hc u hau huc
      exact ⟨h, Or.inl hh, hu⟩
    · -- behind the span of `s`: the file that ends last reaches back into the span
      rcases hg with hg | hg
      · exact absurd ⟨g, hg, h2⟩ hlast
      · obtain ⟨c, hc, hgc⟩ := (ht g hg).2
        have hcu : c.largest.user_key < u := not_le.1 fun hle => hlast ⟨c, hc, hle⟩
        exact ⟨g, Or.inr hg, hgc.trans hcu.le, h2⟩
  · rcases hf with hf | hf
    · exact absurd ⟨f, hf, h1⟩ hfirst
    · obtain ⟨a, ha, haf⟩ := (ht f hf).1
      have hua : u < a.smallest.user_key := not_le.1 fun hle => hfirst ⟨a, ha, hle⟩
      exact ⟨f, Or.inr hf, h1, hua.le.trans haf⟩

/-- The members of a list of files, as a set. -/
def fileSet (files : List (FileMetaData K)) : Set (FileMetaData K) := {f | f ∈ files}

theorem boundaryFiles_gapless
    (hne : ∀ f ∈ files, f.smallest ≤ f.largest) (fuel : ℕ) (hs : Gapless s)
    (hmem : ∃ f ∈ s, f.largest = key ∧ f.smallest ≤ f.largest) :
    Gapless (s ∪ fileSet (boundaryFiles files fuel key)) := by
  induction fuel generalizing key s with
  | zero => simpa [boundaryFiles, fileSet] using hs
  | succ fuel ih =>
    rw [boundaryFiles]
    cases hfind : findSmallestBoundaryFile files key with
    | none => simpa [fileSet] using hs
    | some h =>
      obtain ⟨hh, hb, -⟩ := (findSmallestBoundaryFile_spec files key).2 h hfind
      obtain ⟨f, hf, rfl, hfne⟩ := hmem
      have htouch : ∀ g ∈ ({h} : Set (FileMetaData K)), Touches s g := by
        rintro _ rfl
        refine ⟨⟨f, hf, ?_⟩, f, hf, hb.2.le⟩
        exact InternalKey.user_key_le (hfne.trans (hb.1.le.trans (hne _ hh)))
      have := ih (hs.union htouch) ⟨h, Or.inr rfl, rfl, hne h hh⟩
      rwa [Set.union_assoc, show ({h} : Set (FileMetaData K)) ∪
        fileSet (boundaryFiles files fuel h.largest) =
          fileSet (h :: boundaryFiles files fuel h.largest) from
        Set.ext fun g => by simp [fileSet]] at this

theorem addBoundaryInputs_gapless (hne : ∀ f ∈ files, f.smallest ≤ f.largest)
    (hsub : ∀ f ∈ inputs, f ∈ files) (h : Gapless (s ∪ fileSet inputs)) :
    Gapless (s ∪ fileSet (addBoundaryInputs files inputs)) := by
  rw [addBoundaryInputs, findLargestKey_eq]
  cases hr : getRange inputs with
  | none => exact h
  | some r =>
    obtain ⟨f, hf, hlargest⟩ := (getRange_spec hr).largest_mem
    have := boundaryFiles_gapless hne (files.length + 1) h
      ⟨f, Or.inr hf, hlargest, hne f (hsub f hf)⟩
    rwa [Set.union_assoc, show fileSet inputs ∪
      fileSet (boundaryFiles files (files.length + 1) r.2) =
        fileSet (inputs ++ boundaryFiles files (files.length + 1) r.2) from
      Set.ext fun g => by simp [fileSet]] at this

variable {start limit : InternalKey K}

theorem getOverlappingInputs_gapless (v : Version K) (level : ℕ) (hs : Gapless s)
    (hstart : ∃ f ∈ s, f.smallest.user_key ≤ start.user_key)
    (hlimit : ∃ f ∈ s, limit.user_key ≤ f.largest.user_key) :
    Gapless (s ∪ fileSet (getOverlappingInputs v level (some start) (some limit))) := by
  -- the files met so far have no gap and span the range
  obtain ⟨r, ⟨p, q, t, rfl, ht, hst, hts, hp, hq⟩, heq, -, -⟩ := getOverlappingInputs_spec v level
    (some start) (some limit)
    (P := fun r => ∃ p q t, r = (some p, some q) ∧ Gapless t ∧ s ⊆ t ∧
      (∀ f ∈ t, f ∈ s ∨ f ∈ v level ∧ overlaps r.1 r.2 f = true) ∧
      (∃ f ∈ t, f.smallest.user_key ≤ p) ∧ ∃ f ∈ t, q ≤ f.largest.user_key)
    (by
      rintro r r' hw ⟨p, q, t, rfl, ht, hst, hts, ⟨a, ha, hap⟩, c, hc, hqc⟩
      have hold : ∀ f ∈ t, f ∈ s ∨ f ∈ v level ∧ overlaps r'.1 r'.2 f = true :=
        fun f hf => (hts f hf).imp_right fun h => ⟨h.1, (hw.covers (.refl _)).overlaps h.2⟩
      cases hw with
      | @first _ _ f hf hov hlt =>
        obtain ⟨h1, h2⟩ := overlaps_some.1 hov
        have htouch : ∀ g ∈ ({f} : Set (FileMetaData K)), Touches t g := by
          rintro _ rfl
          exact ⟨⟨a, ha, hap.trans h1⟩, c, hc, h2.trans hqc⟩
        refine ⟨f.smallest.user_key, q, t ∪ {f}, rfl, ht.union htouch,
          hst.trans Set.subset_union_left, ?_, ⟨f, Or.inr rfl, le_rfl⟩, c, Or.inl hc, hqc⟩
        rintro g (hg | rfl)
        · exact hold g hg
        · exact Or.inr ⟨hf, ((Widens.first hf hov hlt).covers (.refl _)).overlaps hov⟩
      | @last _ _ f hf hov hlt =>
        obtain ⟨h1, h2⟩ := overlaps_some.1 hov
        have htouch : ∀ g ∈ ({f} : Set (FileMetaData K)), Touches t g := by
          rintro _ rfl
          exact ⟨⟨a, ha, hap.trans h1⟩, c, hc, h2.trans hqc⟩
        refine ⟨p, f.largest.user_key, t ∪ {f}, rfl, ht.union htouch,
          hst.trans Set.subset_union_left, ?_, ⟨a, Or.inl ha, hap⟩, f, Or.inr rfl, le_rfl⟩
        rintro g (hg | rfl)
        · exact hold g hg
        · exact Or.inr ⟨hf, ((Widens.last hf hov hlt).covers (.refl _)).overlaps hov⟩)
    ⟨start.user_key, limit.user_key, s, rfl, hs, subset_rfl, fun f hf => Or.inl hf, hstart, hlimit⟩
  have hres : fileSet (getOverlappingInputs v level (some start) (some limit)) =
      {f | f ∈ v level ∧ overlaps (some p) (some q) f = true} :=
    Set.ext fun f => by simp [fileSet, heq]
  have hunion : s ∪ fileSet (getOverlappingInputs v level (some start) (some limit)) =
      t ∪ fileSet (getOverlappingInputs v level (some start) (some limit)) := by
    refine Set.Subset.antisymm (Set.union_subset_union_left _ hst) (Set.union_subset ?_
      Set.subset_union_right)
    intro f hf
    exact (hts f hf).imp_right fun h => hres ▸ h
  rw [hunion]
  refine ht.union fun g hg => ?_
  rw [hres] at hg
  obtain ⟨h1, h2⟩ := overlaps_some.1 hg.2
  obtain ⟨a, ha, hap⟩ := hp
  obtain ⟨c, hc, hqc⟩ := hq
  exact ⟨⟨a, ha, hap.trans h1⟩, c, hc, h2.trans hqc⟩

/-! ### Choosing the inputs -/

/-- Inputs before boundary files are added: some files of the level; in level 0 all that overlap
them, in other levels without gaps in the order of the level. -/
structure Seed (v : Version K) (level : ℕ) (inputs : List (FileMetaData K)) : Prop where
  nonempty : inputs ≠ []
  sub : ∀ f ∈ inputs, f ∈ v level
  settled : level = 0 → Settled (v level) inputs
  sublist : level = 0 → inputs.Sublist (v level)
  convex : level ≠ 0 → Convex (v level) inputs
  ordered : level ≠ 0 → Ordered inputs

/-- What holds of the inputs of a compaction in its version. -/
structure Chosen (v : Version K) (c : Compaction K) : Prop where
  nonempty : c.inputs0 ≠ []
  sub : ∀ f ∈ c.inputs0, f ∈ v c.level
  settled : Settled (v c.level) c.inputs0
  sublist : c.level = 0 → c.inputs0.Sublist (v c.level)
  ordered : c.level ≠ 0 → Ordered c.inputs0
  inputs1 : ∃ smallest largest, getRange c.inputs0 = some (smallest, largest) ∧
    c.inputs1 = (v (c.level + 1)).filter
      (overlaps (some smallest.user_key) (some largest.user_key))

variable {v : Version K} {level max_file_size : ℕ} {inputs : List (FileMetaData K)}

theorem getOverlappingInputs_seed (hv : WellFormed v) {start limit : Option (InternalKey K)}
    (h : getOverlappingInputs v level start limit ≠ []) :
    Seed v level (getOverlappingInputs v level start limit) := by
  obtain ⟨r, -, heq, hin, -⟩ := getOverlappingInputs_spec v level start limit
    (P := fun _ => True) (fun _ _ _ _ => trivial) trivial
  rw [heq] at h ⊢
  -- a file that does not overlap the range is on one side of all files that do
  have hside : ∀ g ∈ v level, g ∉ (v level).filter (overlaps r.1 r.2) →
      (∃ p, r.1 = some p ∧ g.largest.user_key < p) ∨
        ∃ q, r.2 = some q ∧ q < g.smallest.user_key := by
    intro g hg hout
    have hno : overlaps r.1 r.2 g = false :=
      Bool.not_eq_true _ ▸ fun hov => hout (mem_filter.2 ⟨hg, hov⟩)
    rw [overlaps, Bool.not_eq_false', Bool.or_eq_true, afterFile, beforeFile, Option.any_eq_true,
      Option.any_eq_true] at hno
    rcases hno with ⟨p, hp, hlt⟩ | ⟨q, hq, hlt⟩
    · exact Or.inl ⟨p, hp, of_decide_eq_true hlt⟩
    · exact Or.inr ⟨q, hq, of_decide_eq_true hlt⟩
  refine ⟨h, fun f hf => mem_of_mem_filter hf, fun h0 g hg hout => ?_,
    fun _ => filter_sublist, fun h0 g hg hout => ?_, fun h0 => (hv.ordered level h0).filter _⟩
  · rcases hside g hg hout with ⟨p, hp, hlt⟩ | ⟨q, hq, hlt⟩
    · refine Or.inl fun f hf => InternalKey.lt_of_user_key_lt (hlt.trans_le ?_)
      obtain ⟨hf, hov⟩ := mem_filter.1 hf
      exact (hin h0 f hf hov).1 p hp
    · refine Or.inr fun f hf => lt_of_le_of_lt ?_ hlt
      obtain ⟨hf, hov⟩ := mem_filter.1 hf
      exact (hin h0 f hf hov).2 q hq
  · have hapart : ∀ f ∈ (v level).filter (overlaps r.1 r.2), Apart g f := by
      intro f hf
      refine (hv.ordered level h0).apart hg (mem_of_mem_filter hf) fun heq => hout ?_
      exact heq ▸ hf
    rcases hside g hg hout with ⟨p, hp, hlt⟩ | ⟨q, hq, hlt⟩
    · refine Or.inl fun f hf => (hapart f hf).resolve_right fun hfg => ?_
      have := (overlaps_iff.1 (mem_filter.1 hf).2).1 p hp
      have hle := InternalKey.user_key_le (hfg.le.trans (hv.nonempty level g hg))
      exact absurd (this.trans hle) (not_le.2 hlt)
    · refine Or.inr fun f hf => (hapart f hf).resolve_left fun hgf => ?_
      have := (overlaps_iff.1 (mem_filter.1 hf).2).2 q hq
      have hle := InternalKey.user_key_le ((hv.nonempty level g hg).trans hgf.le)
      exact absurd (hle.trans this) (not_le.2 hlt)

variable {f : FileMetaData K}

theorem seed_singleton (hv : WellFormed v) (h0 : level ≠ 0)
    (hf : f ∈ v level) : Seed v level [f] := by
  refine ⟨cons_ne_nil _ _, fun g hg => ?_, fun h => absurd h h0, fun h => absurd h h0,
    fun _ g hg hout => ?_, fun _ => pairwise_singleton _ _⟩
  · rw [mem_singleton.1 hg]
    exact hf
  · have hne : g ≠ f := fun heq => hout (mem_singleton.2 heq)
    rcases (hv.ordered level h0).apart hg hf hne with h | h
    · exact Or.inl fun x hx => by rw [mem_singleton.1 hx]; exact h
    · exact Or.inr fun x hx => by rw [mem_singleton.1 hx]; exact h

omit [LinearOrder K] in
theorem truncateInputs_prefix (limit total : ℕ) (inputs : List (FileMetaData K)) :
    truncateInputs limit total inputs <+: inputs := by
  induction inputs generalizing total with
  | nil => exact prefix_rfl
  | cons f inputs ih =>
    rw [truncateInputs]
    split_ifs with h
    · exact ⟨inputs, rfl⟩
    · exact prefix_cons_inj f |>.2 (ih _)

omit [LinearOrder K] in
theorem truncateInputs_ne_nil {limit total : ℕ} (h : inputs ≠ []) :
    truncateInputs limit total inputs ≠ [] := by
  obtain ⟨f, rest, rfl⟩ := exists_cons_of_ne_nil h
  rw [truncateInputs]
  split_ifs
  · exact cons_ne_nil _ _
  · exact cons_ne_nil _ _

theorem Seed.truncate (h : Seed v level inputs) (h0 : level ≠ 0) (limit : ℕ) :
    Seed v level (truncateInputs limit 0 inputs) := by
  obtain ⟨rest, hrest⟩ := truncateInputs_prefix limit 0 inputs
  have hord := h.ordered h0
  rw [← hrest] at hord
  obtain ⟨hfirst, -, hcross⟩ := pairwise_append.1 hord
  have hsub : ∀ f ∈ truncateInputs limit 0 inputs, f ∈ inputs := fun f hf => by
    rw [← hrest]
    exact mem_append_left _ hf
  refine ⟨truncateInputs_ne_nil h.nonempty, fun f hf => h.sub f (hsub f hf),
    fun hz => absurd hz h0, fun hz => absurd hz h0, fun _ g hg hout => ?_, fun _ => hfirst⟩
  by_cases hin : g ∈ inputs
  · rw [← hrest, mem_append] at hin
    exact Or.inr fun f hf => hcross f hf g (hin.resolve_left hout)
  · exact (h.convex h0 g hg hin).imp (fun hb f hf => hb f (hsub f hf))
      fun ha f hf => ha f (hsub f hf)

theorem Seed.addBoundaryInputs (hv : WellFormed v) (h : Seed v level inputs) :
    addBoundaryInputs (v level) inputs ≠ [] ∧
      (∀ f ∈ addBoundaryInputs (v level) inputs, f ∈ v level) ∧
      Settled (v level) (addBoundaryInputs (v level) inputs) ∧
      (level = 0 → (addBoundaryInputs (v level) inputs).Sublist (v level)) ∧
      (level ≠ 0 → Ordered (addBoundaryInputs (v level) inputs)) ∧
      ∀ f ∈ inputs, f ∈ addBoundaryInputs (v level) inputs := by
  by_cases h0 : level = 0
  · rw [addBoundaryInputs_of_settled (hv.nonempty level) h.sub (h.settled h0)]
    exact ⟨h.nonempty, h.sub, h.settled h0, h.sublist, fun hne => absurd h0 hne, fun f hf => hf⟩
  · obtain ⟨hsub, hset, hord⟩ := addBoundaryInputs_settled (hv.ordered level h0) (hv.nonempty level)
      h.nonempty h.sub (h.convex h0) (h.ordered h0)
    have hin : ∀ f ∈ inputs, f ∈ Bourbon.addBoundaryInputs (v level) inputs := fun f hf => by
      rw [Bourbon.addBoundaryInputs]
      split
      · exact hf
      · exact mem_append_left _ hf
    obtain ⟨f, hf⟩ := exists_mem_of_ne_nil _ h.nonempty
    exact ⟨ne_nil_of_mem (hin f hf), hsub, hset, fun hz => absurd hz h0, fun _ => hord, hin⟩

theorem expandInputs_cases (max_file_size : ℕ) (v : Version K) (level : ℕ)
    (inputs0 inputs1 : List (FileMetaData K)) (all_start all_limit : InternalKey K) :
    expandInputs max_file_size v level inputs0 inputs1 all_start all_limit = (inputs0, inputs1) ∨
      ∃ new_start new_limit,
        getOverlappingInputs v level (some all_start) (some all_limit) ≠ [] ∧
        getRange (addBoundaryInputs (v level)
          (getOverlappingInputs v level (some all_start) (some all_limit))) =
            some (new_start, new_limit) ∧
        (getOverlappingInputs v (level + 1) (some new_start) (some new_limit)).length =
          inputs1.length ∧
        expandInputs max_file_size v level inputs0 inputs1 all_start all_limit =
          (addBoundaryInputs (v level)
            (getOverlappingInputs v level (some all_start) (some all_limit)),
          getOverlappingInputs v (level + 1) (some new_start) (some new_limit)) := by
  rw [expandInputs]
  generalize hg : getOverlappingInputs v level (some all_start) (some all_limit) = grown
  simp only
  split_ifs with h
  · split
    · exact Or.inl rfl
    · rename_i new_start new_limit hr
      split_ifs with hlen
      · refine Or.inr ⟨new_start, new_limit, fun hnil => ?_, hr, hlen, rfl⟩
        rw [hnil] at hr
        cases hr
      · exact Or.inl rfl
  · exact Or.inl rfl

/-- The first range of `SetupOtherInputs` already contains all inputs of the level. -/
theorem mem_getOverlappingInputs (hv : WellFormed v) (hf : f ∈ v level)
    (hstart : start ≤ f.smallest) (hlimit : f.largest ≤ limit) :
    f ∈ getOverlappingInputs v level (some start) (some limit) := by
  have hne := hv.nonempty level f hf
  obtain ⟨r, hr, heq, -, -⟩ := getOverlappingInputs_spec v level (some start) (some limit)
    (P := fun r => overlaps r.1 r.2 f = true) (fun r r' hw h => (hw.covers (.refl _)).overlaps h)
    (overlaps_some.2 ⟨InternalKey.user_key_le (hstart.trans hne),
      InternalKey.user_key_le (hne.trans hlimit)⟩)
  rw [heq]
  exact mem_filter.2 ⟨hf, hr⟩

variable {g : FileMetaData K}

theorem IsRange.overlaps_touches
    (h : IsRange inputs smallest largest)
    (hg : g ∈ files.filter (overlaps (some smallest.user_key) (some largest.user_key))) :
    Touches (fileSet inputs) g := by
  obtain ⟨h1, h2⟩ := overlaps_some.1 (mem_filter.1 hg).2
  obtain ⟨a, ha, rfl⟩ := h.smallest_mem
  obtain ⟨c, hc, rfl⟩ := h.largest_mem
  exact ⟨⟨a, ha, h1⟩, c, hc, h2⟩

theorem IsRange.filter_subset {smallest' largest' : InternalKey K}
    {inputs' : List (FileMetaData K)} (h : IsRange inputs smallest largest)
    (h' : IsRange inputs' smallest' largest') (hsub : ∀ f ∈ inputs, f ∈ inputs')
    (files : List (FileMetaData K)) :
    ∀ g ∈ files.filter (overlaps (some smallest.user_key) (some largest.user_key)),
      g ∈ files.filter (overlaps (some smallest'.user_key) (some largest'.user_key)) := by
  intro g hg
  obtain ⟨hmem, hov⟩ := mem_filter.1 hg
  obtain ⟨h1, h2⟩ := overlaps_some.1 hov
  obtain ⟨a, ha, rfl⟩ := h.smallest_mem
  obtain ⟨b, hb, rfl⟩ := h.largest_mem
  exact mem_filter.2 ⟨hmem, overlaps_some.2
    ⟨(InternalKey.user_key_le (h'.smallest_le a (hsub a ha))).trans h1,
      h2.trans (InternalKey.user_key_le (h'.le_largest b (hsub b hb)))⟩⟩

theorem Gapless.grow {inputs0 inputs1 expanded0 expanded1 : List (FileMetaData K)}
    (h : Gapless (fileSet inputs0 ∪ fileSet inputs1 ∪ fileSet expanded0))
    (h0 : ∀ f ∈ inputs0, f ∈ expanded0) (h1 : ∀ f ∈ inputs1, f ∈ expanded1)
    (htouch : ∀ g ∈ expanded1, Touches (fileSet expanded0) g) :
    Gapless (fileSet expanded0 ∪ fileSet expanded1) := by
  have hall := h.union (t := fileSet expanded1) fun g hg => by
    obtain ⟨⟨a, ha, hag⟩, b, hb, hgb⟩ := htouch g hg
    exact ⟨⟨a, Or.inr ha, hag⟩, b, Or.inr hb, hgb⟩
  have hset : fileSet inputs0 ∪ fileSet inputs1 ∪ fileSet expanded0 ∪ fileSet expanded1 =
      fileSet expanded0 ∪ fileSet expanded1 := by
    refine Set.Subset.antisymm ?_ (Set.union_subset_union_left _ Set.subset_union_right)
    rintro f (((hf | hf) | hf) | hf)
    · exact Or.inl (h0 f hf)
    · exact Or.inr (h1 f hf)
    · exact Or.inl hf
    · exact Or.inr hf
  rwa [hset] at hall

variable {c : Compaction K}

/-- **`SetupOtherInputs`** settles the inputs, takes all overlapping files of the next level, and
opens no gap. -/
theorem setupOtherInputs_spec (hv : WellFormed v) (hseed : Seed v level inputs)
    (h : setupOtherInputs max_file_size v level inputs = some c) :
    c.level = level ∧ Chosen v c ∧
      (Gapless (fileSet inputs) → Gapless (fileSet c.inputs0 ∪ fileSet c.inputs1)) := by
  obtain ⟨hne0, hsub0, hset0, hlist0, hord0, hin0⟩ := hseed.addBoundaryInputs hv
  have hgap0 : Gapless (fileSet inputs) →
      Gapless (fileSet (addBoundaryInputs (v level) inputs)) := fun hgap => by
    have := addBoundaryInputs_gapless (s := ∅) (hv.nonempty level) hseed.sub
      (by rwa [Set.empty_union])
    rwa [Set.empty_union] at this
  simp only [setupOtherInputs, bind_eq_bind, bind_eq_some_iff,
    Option.some.injEq] at h
  generalize addBoundaryInputs (v level) inputs = inputs0 at *
  obtain ⟨⟨smallest, largest⟩, hr0, ⟨all_start, all_limit⟩, hall, r, hr, r', -, rfl⟩ := h
  simp only [getOverlappingInputs_succ] at hall hr ⊢
  have hrange0 := getRange_spec hr0
  have hrangeAll := getRange_spec hall
  generalize hi1 : (v (level + 1)).filter
    (overlaps (some smallest.user_key) (some largest.user_key)) = inputs1 at *
  have hgap1 : Gapless (fileSet inputs) → Gapless (fileSet inputs0 ∪ fileSet inputs1) :=
    fun hgap => (hgap0 hgap).union fun g hg => hrange0.overlaps_touches (hi1 ▸ hg)
  rcases expandInputs_cases max_file_size v level inputs0 inputs1 all_start all_limit with
    heq | ⟨new_start, new_limit, hgne, hgr, -, heq⟩
  · rw [heq]
    exact ⟨trivial, ⟨hne0, hsub0, hset0, hlist0, hord0, smallest, largest, hr0, hi1.symm⟩, hgap1⟩
  · -- the grown inputs are settled in the same way
    have hgrown := getOverlappingInputs_seed hv hgne
    obtain ⟨hne0', hsub0', hset0', hlist0', hord0', hin0'⟩ := hgrown.addBoundaryInputs hv
    have hrange' := getRange_spec hgr
    rw [heq, getOverlappingInputs_succ]
    refine ⟨trivial, ⟨hne0', hsub0', hset0', hlist0', hord0', new_start, new_limit, hgr, rfl⟩,
      fun hgap => ?_⟩
    have hsubset : ∀ f ∈ inputs0, f ∈ addBoundaryInputs (v level)
        (getOverlappingInputs v level (some all_start) (some all_limit)) := fun f hf =>
      hin0' f (mem_getOverlappingInputs hv (hsub0 f hf)
        (hrangeAll.smallest_le f (mem_append_left _ hf))
        (hrangeAll.le_largest f (mem_append_left _ hf)))
    obtain ⟨a, ha, hstart⟩ := hrangeAll.smallest_mem
    obtain ⟨b, hb, hlimit⟩ := hrangeAll.largest_mem
    have hgap2 := getOverlappingInputs_gapless v level (hgap1 hgap)
      ⟨a, mem_append.1 ha, (congrArg InternalKey.user_key hstart).le⟩
      ⟨b, mem_append.1 hb, (congrArg InternalKey.user_key hlimit).ge⟩
    have hgap3 := addBoundaryInputs_gapless (hv.nonempty level) hgrown.sub hgap2
    exact hgap3.grow hsubset (hi1 ▸ hrange0.filter_subset hrange' hsubset _)
      fun g hg => hrange'.overlaps_touches hg

variable {compact_pointer : ℕ → Option (InternalKey K)}
variable {file_to_compact : Option (ℕ × FileMetaData K)}

theorem pickFile_mem
    (hseek : ∀ p, file_to_compact = some p → p.2 ∈ v p.1)
    (h : pickFile v compact_pointer file_to_compact = some (level, f)) : f ∈ v level := by
  rw [pickFile] at h
  generalize finalize v = best at h
  obtain ⟨best_level, score⟩ := best
  by_cases hscore : 1 ≤ score
  · simp only [if_pos hscore] at h
    obtain ⟨g, hg, heq⟩ := map_eq_some_iff.1 h
    obtain ⟨rfl, rfl⟩ := Prod.mk.inj heq
    rcases or_eq_some_iff.1 hg with hfind | ⟨-, hhead⟩
    · exact mem_of_find?_eq_some hfind
    · exact mem_of_mem_head? hhead
  · simp only [if_neg hscore] at h
    exact hseek _ h

/-- **The inputs of an automatic compaction.** -/
theorem pickCompaction_spec (hv : WellFormed v)
    (hseek : ∀ p, file_to_compact = some p → p.2 ∈ v p.1)
    (h : pickCompaction max_file_size v compact_pointer file_to_compact = some c) :
    Chosen v c ∧ Gapless (fileSet c.inputs0 ∪ fileSet c.inputs1) := by
  unfold pickCompaction at h
  cases hpick : pickFile v compact_pointer file_to_compact with
  | none => simp only [hpick, reduceCtorEq] at h
  | some p =>
    obtain ⟨level, f⟩ := p
    have hf := pickFile_mem hseek hpick
    simp only [hpick] at h
    by_cases h0 : level = 0
    · subst h0
      simp only [if_true] at h
      have hmem : f ∈ getOverlappingInputs v 0 (some f.smallest) (some f.largest) :=
        mem_getOverlappingInputs hv hf le_rfl le_rfl
      have hgap := getOverlappingInputs_gapless v 0 (gapless_singleton f)
        ⟨f, rfl, le_rfl⟩ ⟨f, rfl, le_rfl⟩
      have hsub : {f} ⊆ fileSet (getOverlappingInputs v 0 (some f.smallest) (some f.largest)) :=
        Set.singleton_subset_iff.2 hmem
      rw [Set.union_eq_right.2 hsub] at hgap
      obtain ⟨-, hc, hg⟩ := setupOtherInputs_spec hv
        (getOverlappingInputs_seed hv (ne_nil_of_mem hmem)) h
      exact ⟨hc, hg hgap⟩
    · simp only [if_neg h0] at h
      obtain ⟨-, hc, hg⟩ := setupOtherInputs_spec hv (seed_singleton hv h0 hf) h
      refine ⟨hc, hg ?_⟩
      rw [show fileSet [f] = {f} from Set.ext fun g => mem_singleton]
      exact gapless_singleton f

/-- **The inputs of a manual compaction.** -/
theorem compactRange_spec (hv : WellFormed v) {start limit : Option (InternalKey K)}
    (h : compactRange max_file_size v level start limit = some c) :
    c.level = level ∧ Chosen v c := by
  rw [compactRange] at h
  split_ifs at h with hnil h0
  · have := setupOtherInputs_spec hv
      ((getOverlappingInputs_seed hv hnil).truncate (Nat.pos_iff_ne_zero.1 h0) _) h
    exact ⟨this.1, this.2.1⟩
  · have := setupOtherInputs_spec hv (getOverlappingInputs_seed hv hnil) h
    exact ⟨this.1, this.2.1⟩

/-! ### Files that are not inputs -/

theorem Chosen.sub_next (h : Chosen v c) :
    ∀ f ∈ c.inputs1, f ∈ v (c.level + 1) := by
  obtain ⟨smallest, largest, -, heq⟩ := h.inputs1
  intro f hf
  rw [heq] at hf
  exact mem_of_mem_filter hf

/-- **Other files of the next level are before or behind all inputs.** -/
theorem Chosen.apart_next (hv : WellFormed v) (h : Chosen v c) (hg : g ∈ v (c.level + 1))
    (hout : g ∉ c.inputs1) :
    (∀ f ∈ c.inputs0 ++ c.inputs1, g.largest < f.smallest) ∨
      ∀ f ∈ c.inputs0 ++ c.inputs1, f.largest < g.smallest := by
  obtain ⟨smallest, largest, hr, heq⟩ := h.inputs1
  have hrange := getRange_spec hr
  have hno : overlaps (some smallest.user_key) (some largest.user_key) g = false :=
    Bool.not_eq_true _ ▸ fun hov => hout (heq ▸ mem_filter.2 ⟨hg, hov⟩)
  -- the order of the next level decides for its inputs
  have hapart : ∀ f ∈ c.inputs1, Apart g f ∧ smallest.user_key ≤ f.largest.user_key ∧
      f.smallest.user_key ≤ largest.user_key := by
    intro f hf
    refine ⟨(hv.ordered _ (Nat.succ_ne_zero _)).apart hg (h.sub_next f hf)
      fun he => hout (he ▸ hf), ?_⟩
    rw [heq] at hf
    exact overlaps_some.1 (mem_filter.1 hf).2
  have hgne := hv.nonempty _ g hg
  rw [← Bool.not_eq_true, overlaps_some, not_and_or, not_le, not_le] at hno
  rcases hno with hlt | hlt
  · refine Or.inl fun f hf => ?_
    rcases mem_append.1 hf with hf | hf
    · exact InternalKey.lt_of_user_key_lt
        (hlt.trans_le (InternalKey.user_key_le (hrange.smallest_le f hf)))
    · obtain ⟨hap, hle, -⟩ := hapart f hf
      refine hap.resolve_right fun hfg => absurd hle (not_le.2 (lt_of_le_of_lt ?_ hlt))
      exact InternalKey.user_key_le (hfg.le.trans hgne)
  · refine Or.inr fun f hf => ?_
    rcases mem_append.1 hf with hf | hf
    · exact InternalKey.lt_of_user_key_lt
        ((InternalKey.user_key_le (hrange.le_largest f hf)).trans_lt hlt)
    · obtain ⟨hap, -, hle⟩ := hapart f hf
      refine hap.resolve_left fun hgf => absurd hle (not_le.2 (hlt.trans_le ?_))
      exact InternalKey.user_key_le (hgne.trans hgf.le)

end Bourbon
