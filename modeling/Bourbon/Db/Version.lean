import Bourbon.Db.VersionEdit

/-!
# Overlap queries on a version

`db/version_set.cc`: which files of a level overlap a range of user keys, and the level in which a
flushed memtable is put.  A missing bound of a range stands for the first or the last key.

* `someFileOverlapsRange_iff` : the answer is exact, by scan or by binary search;
* `getOverlappingInputs_spec` : the result is what overlaps a range that contains the given one; in
  level 0 this range contains all files of the result, and it is the least such range
  (`getOverlappingInputs_level0`);
* `pickLevelForMemTableOutput_spec` : down to its level, a flushed memtable overlaps no file.
-/

namespace Bourbon

open List Option

variable {K : Type*} [LinearOrder K]

/-- `AfterFile`: the user key is behind the file. -/
def afterFile (user_key : Option K) (f : FileMetaData K) : Bool :=
  user_key.any fun u => f.largest.user_key < u

/-- `BeforeFile`: the user key is before the file. -/
def beforeFile (user_key : Option K) (f : FileMetaData K) : Bool :=
  user_key.any fun u => u < f.smallest.user_key

/-- The file overlaps a range. -/
def overlaps (smallest_user_key largest_user_key : Option K) (f : FileMetaData K) : Bool :=
  !(afterFile smallest_user_key f || beforeFile largest_user_key f)

/-- `SomeFileOverlapsRange`. -/
def someFileOverlapsRange (disjoint_sorted_files : Bool) (files : List (FileMetaData K))
    (smallest_user_key largest_user_key : Option K) : Bool :=
  if !disjoint_sorted_files then files.any (overlaps smallest_user_key largest_user_key)
  else
    let index := match smallest_user_key with
      | none => 0
      | some u => findFile files (lookupKey u kMaxSequenceNumber)
    match files[index]? with
    | none => false
    | some f => !beforeFile largest_user_key f

/-- `Version::OverlapInLevel`. -/
def overlapInLevel (v : Version K) (level : ℕ) (smallest_user_key largest_user_key : Option K) :
    Bool :=
  someFileOverlapsRange (decide (0 < level)) (v level) smallest_user_key largest_user_key

/-- A pass of `GetOverlappingInputs` over the files.  In level 0, a file that reaches beyond the
range ends the pass, and the search is restarted with the larger range. -/
def scanOverlaps (level0 : Bool) (user_begin user_end : Option K) :
    List (FileMetaData K) → Except (Option K × Option K) (List (FileMetaData K))
  | [] => .ok []
  | f :: files =>
    if overlaps user_begin user_end f then
      if level0 && user_begin.any (fun u => f.smallest.user_key < u) then
        .error (some f.smallest.user_key, user_end)
      else if level0 && user_end.any (fun u => u < f.largest.user_key) then
        .error (user_begin, some f.largest.user_key)
      else (scanOverlaps level0 user_begin user_end files).map (f :: ·)
    else scanOverlaps level0 user_begin user_end files

/-- The passes of `GetOverlappingInputs`. -/
def overlapPasses (level0 : Bool) (files : List (FileMetaData K)) :
    ℕ → Option K → Option K → List (FileMetaData K)
  | 0, _, _ => []
  | fuel + 1, user_begin, user_end =>
    match scanOverlaps level0 user_begin user_end files with
    | .ok inputs => inputs
    | .error range => overlapPasses level0 files fuel range.1 range.2

/-- `Version::GetOverlappingInputs`: a restart moves one bound of the range to the bound of a file,
so two restarts a file are enough (`getOverlappingInputs_spec`). -/
def getOverlappingInputs (v : Version K) (level : ℕ) (start limit : Option (InternalKey K)) :
    List (FileMetaData K) :=
  overlapPasses (decide (level = 0)) (v level) (2 * (v level).length + 1)
    (start.map InternalKey.user_key) (limit.map InternalKey.user_key)

/-- `TotalFileSize`. -/
def totalFileSize (files : List (FileMetaData K)) : ℕ := (files.map FileMetaData.file_size).sum

/-- `MaxGrandParentOverlapBytes`. -/
def maxGrandParentOverlapBytes (max_file_size : ℕ) : ℕ := 10 * max_file_size

/-- The deepest level of a flush. -/
def kMaxMemCompactLevel : ℕ := 2

/-- The loop of `PickLevelForMemTableOutput`. -/
def pickLevelLoop (max_file_size : ℕ) (v : Version K) (smallest_user_key largest_user_key : K) :
    ℕ → ℕ → ℕ
  | 0, level => level
  | fuel + 1, level =>
    if overlapInLevel v (level + 1) (some smallest_user_key) (some largest_user_key) then level
    else if level + 2 < kNumLevels ∧ maxGrandParentOverlapBytes max_file_size <
        totalFileSize (getOverlappingInputs v (level + 2)
          (some ⟨smallest_user_key, kMaxSequenceNumber, kValueTypeForSeek⟩)
          (some ⟨largest_user_key, 0, .deletion⟩)) then level
    else pickLevelLoop max_file_size v smallest_user_key largest_user_key fuel (level + 1)

/-- `Version::PickLevelForMemTableOutput`. -/
def pickLevelForMemTableOutput (max_file_size : ℕ) (v : Version K)
    (smallest_user_key largest_user_key : K) : ℕ :=
  if overlapInLevel v 0 (some smallest_user_key) (some largest_user_key) then 0
  else pickLevelLoop max_file_size v smallest_user_key largest_user_key kMaxMemCompactLevel 0

/-! ### Overlap -/

variable {b e : Option K} {f : FileMetaData K} {files : List (FileMetaData K)}

theorem overlaps_iff : overlaps b e f = true ↔
    (∀ u, b = some u → u ≤ f.largest.user_key) ∧ ∀ u, e = some u → f.smallest.user_key ≤ u := by
  rw [overlaps, Bool.not_eq_true', Bool.or_eq_false_iff, afterFile, beforeFile]
  refine and_congr ?_ ?_
  · cases b <;> simp
  · cases e <;> simp

theorem overlaps_some {p q : K} : overlaps (some p) (some q) f = true ↔
    p ≤ f.largest.user_key ∧ f.smallest.user_key ≤ q := by
  rw [overlaps_iff]
  simp

theorem Ordered.largest_sorted (h : Ordered files) (hne : ∀ f ∈ files, f.smallest ≤ f.largest) :
    files.Pairwise fun f g => f.largest ≤ g.largest :=
  h.imp_of_mem fun {_ g} _ hg hfg => hfg.le.trans (hne g hg)

theorem searchIndex_spec (hs : files.Pairwise fun f g => f.largest ≤ g.largest)
    (hseq : ∀ f ∈ files, f.largest.sequence ≤ kMaxSequenceNumber) (i : ℕ) (f : FileMetaData K)
    (hi : files[i]? = some f) : (match b with
      | none => 0
      | some u => findFile files (lookupKey u kMaxSequenceNumber)) ≤ i ↔ afterFile b f = false := by
  cases b with
  | none => simp [afterFile]
  | some u =>
    obtain ⟨-, hbefore, hafter⟩ := findFile_spec (lookupKey u kMaxSequenceNumber) hs
    -- a file ends at or behind `u` exactly if its largest key is not before the search key
    have hle : lookupKey u kMaxSequenceNumber ≤ f.largest ↔ u ≤ f.largest.user_key := by
      rw [lookupKey_le_iff, and_iff_left (hseq f (mem_of_getElem? hi)), le_iff_lt_or_eq]
    rw [afterFile, any_some, decide_eq_false_iff_not, not_lt, ← hle]
    exact ⟨hafter i f hi, fun h => not_lt.1 fun hlt => (hbefore i f hi hlt).not_ge h⟩

/-- **The answer of `SomeFileOverlapsRange` is exact**, for any list of files by a scan, and for
ordered files by binary search. -/
theorem someFileOverlapsRange_iff {disjoint : Bool} (hne : ∀ f ∈ files, f.smallest ≤ f.largest)
    (hseq : ∀ f ∈ files, f.largest.sequence ≤ kMaxSequenceNumber)
    (hord : disjoint = true → Ordered files) :
    someFileOverlapsRange disjoint files b e = true ↔ ∃ f ∈ files, overlaps b e f = true := by
  cases disjoint with
  | false => simp [someFileOverlapsRange]
  | true =>
    have hindex := searchIndex_spec (b := b) ((hord rfl).largest_sorted hne) hseq
    simp only [someFileOverlapsRange, Bool.not_true, Bool.false_eq_true, if_false]
    generalize (match b with
      | none => 0
      | some u => findFile files (lookupKey u kMaxSequenceNumber)) = index at hindex ⊢
    constructor
    · intro h
      cases hf : files[index]? with
      | none => simp [hf] at h
      | some f =>
        rw [hf] at h
        exact ⟨f, mem_of_getElem? hf, by simpa [overlaps, (hindex index f hf).1 le_rfl] using h⟩
    · rintro ⟨f, hmem, hov⟩
      obtain ⟨i, hlen, rfl⟩ := getElem_of_mem hmem
      simp only [overlaps, Bool.not_eq_true', Bool.or_eq_false_iff] at hov
      -- the first file that does not end before the range begins no later than this one
      have hii : index ≤ i := (hindex i _ (List.getElem?_eq_getElem hlen)).2 hov.1
      rw [List.getElem?_eq_getElem (hii.trans_lt hlen)]
      have hle : files[index].smallest.user_key ≤ files[i].smallest.user_key := by
        rcases hii.eq_or_lt with rfl | hlt
        · exact le_rfl
        · have hgf := pairwise_iff_getElem.1 (hord rfl) index i (hii.trans_lt hlen) hlen hlt
          exact InternalKey.user_key_le ((hne _ (getElem_mem _)).trans hgf.le)
      cases e with
      | none => rfl
      | some q =>
        simp only [beforeFile, any_some, decide_eq_false_iff_not, not_lt,
          Bool.not_eq_true'] at hov ⊢
        exact hle.trans hov.2

/-- **The fast overlap test is the definition.**  On files that are sorted and disjoint in the order
of internal keys, binary search and scan give the same answer: some file does not end before the
range and does not begin behind it. -/
theorem someFileOverlapsRange_sorted (files : List (FileMetaData K)) (hord : Ordered files)
    (hne : ∀ f ∈ files, f.smallest ≤ f.largest)
    (hseq : ∀ f ∈ files, f.largest.sequence ≤ kMaxSequenceNumber)
    (smallest_user_key largest_user_key : Option K) :
    (someFileOverlapsRange true files smallest_user_key largest_user_key = true ↔
      ∃ f ∈ files, (∀ u, largest_user_key = some u → f.smallest.user_key ≤ u) ∧
        ∀ u, smallest_user_key = some u → u ≤ f.largest.user_key) ∧
    someFileOverlapsRange true files smallest_user_key largest_user_key =
      someFileOverlapsRange false files smallest_user_key largest_user_key := by
  have hfast := someFileOverlapsRange_iff (b := smallest_user_key) (e := largest_user_key) hne hseq
    fun _ : true = true => hord
  have hscan := someFileOverlapsRange_iff (b := smallest_user_key) (e := largest_user_key) hne hseq
    fun h : false = true => (Bool.false_ne_true h).elim
  refine ⟨hfast.trans ?_, Bool.eq_iff_iff.2 (hfast.trans hscan.symm)⟩
  simp only [overlaps_iff, and_comm]

/-- Two files that share a user key. -/
theorem someFileOverlapsRange_sorted_sharedKey :
    someFileOverlapsRange true
        [(⟨1, 0, ⟨1, 5, .value⟩, ⟨3, 9, .value⟩⟩ : FileMetaData ℕ),
        ⟨2, 0, ⟨3, 8, .value⟩, ⟨5, 1, .value⟩⟩]
        (some 3) none =
      someFileOverlapsRange false
        [⟨1, 0, ⟨1, 5, .value⟩, ⟨3, 9, .value⟩⟩, ⟨2, 0, ⟨3, 8, .value⟩, ⟨5, 1, .value⟩⟩]
        (some 3) none :=
  (someFileOverlapsRange_sorted _ (by decide) (by decide) (by decide) _ _).2

/-! ### Overlapping inputs -/

/-- The file lies inside a range. -/
def Within (r : Option K × Option K) (f : FileMetaData K) : Prop :=
  (∀ u, r.1 = some u → u ≤ f.smallest.user_key) ∧ ∀ u, r.2 = some u → f.largest.user_key ≤ u

/-- A restart: an overlapping file moves one bound of the range. -/
inductive Widens (files : List (FileMetaData K)) :
    Option K × Option K → Option K × Option K → Prop
  | first {u : K} {e : Option K} {f : FileMetaData K} (hf : f ∈ files)
    (hov : overlaps (some u) e f = true) (hlt : f.smallest.user_key < u) :
    Widens files (some u, e) (some f.smallest.user_key, e)
  | last {b : Option K} {u : K} {f : FileMetaData K} (hf : f ∈ files)
    (hov : overlaps b (some u) f = true) (hlt : u < f.largest.user_key) :
    Widens files (b, some u) (b, some f.largest.user_key)

variable {r r' : Option K × Option K}

theorem Widens.mono {files' : List (FileMetaData K)}
    (h : Widens files r r') (hsub : ∀ f ∈ files, f ∈ files') : Widens files' r r' := by
  cases h with
  | first hf hov hlt => exact .first (hsub _ hf) hov hlt
  | last hf hov hlt => exact .last (hsub _ hf) hov hlt

/-- The first range contains the second one. -/
def Covers (r r' : Option K × Option K) : Prop :=
  (∀ u, r.1 = some u → ∃ u', r'.1 = some u' ∧ u ≤ u') ∧
    ∀ u, r.2 = some u → ∃ u', r'.2 = some u' ∧ u' ≤ u

/-- The range contains every file that it overlaps. -/
def Closed (files : List (FileMetaData K)) (r : Option K × Option K) : Prop :=
  ∀ f ∈ files, overlaps r.1 r.2 f = true → Within r f

theorem Covers.refl (r : Option K × Option K) : Covers r r :=
  ⟨fun u hu => ⟨u, hu, le_rfl⟩, fun u hu => ⟨u, hu, le_rfl⟩⟩

theorem Covers.overlaps (h : Covers r r')
    (hov : overlaps r'.1 r'.2 f = true) : overlaps r.1 r.2 f = true := by
  obtain ⟨h1, h2⟩ := overlaps_iff.1 hov
  refine overlaps_iff.2 ⟨fun u hu => ?_, fun u hu => ?_⟩
  · obtain ⟨u', hu', hle⟩ := h.1 u hu
    exact hle.trans (h1 u' hu')
  · obtain ⟨u', hu', hle⟩ := h.2 u hu
    exact (h2 u' hu').trans hle

variable {r₁ : Option K × Option K}

theorem Covers.widens (h : Covers r' r) (hclosed : Closed files r')
    (hw : Widens files r r₁) : Covers r' r₁ := by
  cases hw with
  | first hf hov _ => exact ⟨fun u hu => ⟨_, rfl, (hclosed _ hf (h.overlaps hov)).1 u hu⟩, h.2⟩
  | last hf hov _ => exact ⟨h.1, fun u hu => ⟨_, rfl, (hclosed _ hf (h.overlaps hov)).2 u hu⟩⟩

theorem Widens.covers {r₀ : Option K × Option K} (hw : Widens files r r₁) (h : Covers r r₀) :
    Covers r₁ r₀ := by
  cases hw with
  | first _ _ hlt =>
    refine ⟨fun u hu => ?_, h.2⟩
    obtain ⟨u', hu', hle⟩ := h.1 _ rfl
    exact ⟨u', hu', some.inj hu ▸ hlt.le.trans hle⟩
  | last _ _ hlt =>
    refine ⟨h.1, fun u hu => ?_⟩
    obtain ⟨u', hu', hle⟩ := h.2 _ rfl
    exact ⟨u', hu', some.inj hu ▸ hle.trans hlt.le⟩

theorem scanOverlaps_spec (level0 : Bool) (b e : Option K) (files : List (FileMetaData K)) :
    (∀ inputs, scanOverlaps level0 b e files = .ok inputs →
      inputs = files.filter (overlaps b e) ∧ (level0 = true → ∀ f ∈ inputs, Within (b, e) f)) ∧
    ∀ r, scanOverlaps level0 b e files = .error r → level0 = true ∧ Widens files (b, e) r := by
  induction files with
  | nil =>
    refine ⟨fun inputs h => ?_, fun r h => (by cases h)⟩
    obtain rfl := Except.ok.inj h
    exact ⟨rfl, fun _ f hf => absurd hf not_mem_nil⟩
  | cons f files ih =>
    obtain ⟨ihok, iherr⟩ := ih
    by_cases hov : overlaps b e f = true
    · rw [scanOverlaps, if_pos hov, filter_cons_of_pos hov]
      split_ifs with h1 h2
      · rw [Bool.and_eq_true, Option.any_eq_true] at h1
        obtain ⟨h0, u, rfl, hlt⟩ := h1
        refine ⟨fun _ h => (by cases h), fun r h => ⟨h0, ?_⟩⟩
        obtain rfl := Except.error.inj h
        exact .first mem_cons_self hov (of_decide_eq_true hlt)
      · rw [Bool.and_eq_true, Option.any_eq_true] at h2
        obtain ⟨h0, u, rfl, hlt⟩ := h2
        refine ⟨fun _ h => (by cases h), fun r h => ⟨h0, ?_⟩⟩
        obtain rfl := Except.error.inj h
        exact .last mem_cons_self hov (of_decide_eq_true hlt)
      · cases hrest : scanOverlaps level0 b e files with
        | error r =>
          refine ⟨fun _ h => (by cases h), fun r' h => ?_⟩
          obtain rfl := Except.error.inj h
          obtain ⟨h0, hw⟩ := iherr r hrest
          exact ⟨h0, hw.mono fun g hg => mem_cons_of_mem f hg⟩
        | ok rest =>
          refine ⟨fun inputs h => ?_, fun _ h => (by cases h)⟩
          obtain rfl := Except.ok.inj h
          obtain ⟨hrest, hin⟩ := ihok rest hrest
          refine ⟨by rw [hrest], fun h0 g hg => ?_⟩
          rcases mem_cons.1 hg with rfl | hg
          · refine ⟨fun u hu => ?_, fun u hu => ?_⟩
            · obtain rfl : b = some u := hu
              simpa [h0] using h1
            · obtain rfl : e = some u := hu
              simpa [h0] using h2
          · exact hin h0 g hg
    · rw [scanOverlaps, if_neg hov, filter_cons_of_neg hov]
      refine ⟨ihok, fun r h => ?_⟩
      obtain ⟨h0, hw⟩ := iherr r h
      exact ⟨h0, hw.mono fun g hg => mem_cons_of_mem f hg⟩

/-- The number of bounds of files outside the range. -/
def outside (files : List (FileMetaData K)) (r : Option K × Option K) : ℕ :=
  files.countP (fun f => r.1.any fun u => f.smallest.user_key < u) +
    files.countP fun f => r.2.any fun u => u < f.largest.user_key

theorem outside_le (files : List (FileMetaData K)) (r : Option K × Option K) :
    outside files r ≤ 2 * files.length := by
  have h1 := files.countP_le_length (p := fun f => r.1.any fun u => f.smallest.user_key < u)
  have h2 := files.countP_le_length (p := fun f => r.2.any fun u => u < f.largest.user_key)
  rw [outside]
  omega

theorem countP_lt_countP {α : Type*} {p q : α → Bool} {l : List α} {x : α} (hx : x ∈ l)
    (hp : p x = true) (hq : q x = false) (h : ∀ y ∈ l, q y = true → p y = true) :
    l.countP q < l.countP p := by
  induction l with
  | nil => cases hx
  | cons y l ih =>
    have hrest : l.countP q ≤ l.countP p :=
      countP_mono_left fun z hz => h z (mem_cons_of_mem y hz)
    rcases mem_cons.1 hx with rfl | hx
    · rw [countP_cons_of_pos hp, countP_cons_of_neg (by simp [hq])]
      omega
    · have := ih hx fun z hz => h z (mem_cons_of_mem y hz)
      have hy := h y mem_cons_self
      simp only [countP_cons]
      split_ifs with h1 h2
      · omega
      · exact absurd (hy h1) h2
      · omega
      · omega

theorem Widens.outside_lt (h : Widens files r r') :
    outside files r' < outside files r := by
  cases h with
  | first hf hov hlt =>
    refine Nat.add_lt_add_right (countP_lt_countP hf ?_ ?_ ?_) _
    · simpa using hlt
    · simp
    · intro g _ hg
      simp only [any_some, decide_eq_true_eq] at hg ⊢
      exact hg.trans hlt
  | last hf hov hlt =>
    refine Nat.add_lt_add_left (countP_lt_countP hf ?_ ?_ ?_) _
    · simpa using hlt
    · simp
    · intro g _ hg
      simp only [any_some, decide_eq_true_eq] at hg ⊢
      exact hlt.trans hg

variable {P : Option K × Option K → Prop}

/-- The passes end with a pass that is not cut short, from a range that the restarts lead to. -/
theorem overlapPasses_spec (level0 : Bool) (files : List (FileMetaData K))
    (hP : ∀ r r', scanOverlaps level0 r.1 r.2 files = .error r' → P r → P r') {fuel : ℕ} (h : P r)
    (hfuel : outside files r < fuel) :
    ∃ r', P r' ∧
      scanOverlaps level0 r'.1 r'.2 files = .ok (overlapPasses level0 files fuel r.1 r.2) ∧
      (level0 = false → r' = r) := by
  induction fuel generalizing r with
  | zero => omega
  | succ fuel ih =>
    rw [overlapPasses]
    cases hscan : scanOverlaps level0 r.1 r.2 files with
    | ok inputs => exact ⟨r, h, hscan, fun _ => rfl⟩
    | error r₁ =>
      obtain ⟨h0, hw⟩ := (scanOverlaps_spec level0 r.1 r.2 files).2 r₁ hscan
      have hlt : outside files r₁ < outside files r := hw.outside_lt
      obtain ⟨r', hr', heq, -⟩ := ih (hP _ _ hscan h) (by omega)
      exact ⟨r', hr', heq, fun h0' => absurd (h0.symm.trans h0') Bool.false_ne_true.symm⟩

/-- **`GetOverlappingInputs`** returns what overlaps a range that the restarts have reached from the
given one (`P` is kept by restarts).  In level 0 all files of the result lie inside that range, in
other levels it is the given range. -/
theorem getOverlappingInputs_spec (v : Version K) (level : ℕ) (start limit : Option (InternalKey K))
    (hP : ∀ r r', Widens (v level) r r' → P r → P r')
    (h : P (start.map InternalKey.user_key, limit.map InternalKey.user_key)) :
    ∃ r, P r ∧ getOverlappingInputs v level start limit = (v level).filter (overlaps r.1 r.2) ∧
      (level = 0 → ∀ f ∈ v level, overlaps r.1 r.2 f = true → Within r f) ∧
      (level ≠ 0 → r = (start.map InternalKey.user_key, limit.map InternalKey.user_key)) := by
  obtain ⟨r, hr, hscan, hsame⟩ := overlapPasses_spec _ _
    (fun r r' hr => hP r r' ((scanOverlaps_spec _ r.1 r.2 (v level)).2 r' hr).2) h
    (Nat.lt_succ_of_le (outside_le (v level) _))
  obtain ⟨heq, hin⟩ := (scanOverlaps_spec _ r.1 r.2 (v level)).1 _ hscan
  refine ⟨r, hr, heq, fun h0 f hf hov => ?_, fun h0 => hsame (decide_eq_false h0)⟩
  exact hin (decide_eq_true h0) f (heq ▸ mem_filter.2 ⟨hf, hov⟩)

/-- **The closure of a range in level 0.**  The passes from the given range end.  The result is what
overlaps the least range that contains the given one and every file that overlaps it; open ends
stay open. -/
theorem getOverlappingInputs_level0 (v : Version K) (start limit : Option (InternalKey K)) :
    ∃ r, Relation.ReflTransGen (fun r r' => scanOverlaps true r.1 r.2 (v 0) = .error r')
        (start.map InternalKey.user_key, limit.map InternalKey.user_key) r ∧
      scanOverlaps true r.1 r.2 (v 0) = .ok (getOverlappingInputs v 0 start limit) ∧
      getOverlappingInputs v 0 start limit = (v 0).filter (overlaps r.1 r.2) ∧
      (r.1.isSome = start.isSome ∧ r.2.isSome = limit.isSome) ∧
      Covers r (start.map InternalKey.user_key, limit.map InternalKey.user_key) ∧
      Closed (v 0) r ∧
      ∀ r', Covers r' (start.map InternalKey.user_key, limit.map InternalKey.user_key) →
        Closed (v 0) r' → Covers r' r := by
  set r₀ := (start.map InternalKey.user_key, limit.map InternalKey.user_key) with hr₀
  obtain ⟨r, ⟨hreach, hsome, hcovers, hleast⟩, hscan, -⟩ := overlapPasses_spec true (v 0)
    (P := fun r => Relation.ReflTransGen
      (fun r r' => scanOverlaps true r.1 r.2 (v 0) = .error r') r₀ r ∧
      (r.1.isSome = start.isSome ∧ r.2.isSome = limit.isSome) ∧ Covers r r₀ ∧
      ∀ r', Covers r' r₀ → Closed (v 0) r' → Covers r' r) (r := r₀)
    (fun ⟨b, e⟩ r₁ hr ⟨hreach, hsome, hcovers, hleast⟩ => by
      have hw := ((scanOverlaps_spec true b e (v 0)).2 r₁ hr).2
      refine ⟨hreach.tail hr, ?_, hw.covers hcovers, fun r' h hclosed =>
        (hleast r' h hclosed).widens hclosed hw⟩
      cases hw <;> exact hsome)
    ⟨.refl, by simp [hr₀], .refl r₀, fun _ h _ => h⟩
    (Nat.lt_succ_of_le (outside_le (v 0) r₀))
  obtain ⟨heq, hin⟩ := (scanOverlaps_spec true r.1 r.2 (v 0)).1 _ hscan
  exact ⟨r, hreach, hscan, heq, hsome, hcovers, fun f hf hov => hin rfl f
    (heq ▸ mem_filter.2 ⟨hf, hov⟩), hleast⟩

theorem getOverlappingInputs_succ (v : Version K) (level : ℕ) (start limit : InternalKey K) :
    getOverlappingInputs v (level + 1) (some start) (some limit) =
      (v (level + 1)).filter (overlaps (some start.user_key) (some limit.user_key)) := by
  obtain ⟨r, -, heq, -, hsame⟩ := getOverlappingInputs_spec v (level + 1) (some start) (some limit)
    (P := fun _ => True) (fun _ _ _ _ => trivial) trivial
  rw [heq, hsame (Nat.succ_ne_zero level)]
  rfl

/-! ### The level of a flushed memtable -/

/-- **Down to its level, a flushed memtable overlaps nothing.** -/
theorem pickLevelForMemTableOutput_spec (max_file_size : ℕ) (v : Version K) (p q : K) :
    pickLevelForMemTableOutput max_file_size v p q ≤ kMaxMemCompactLevel ∧
      (pickLevelForMemTableOutput max_file_size v p q ≠ 0 →
        ∀ level ≤ pickLevelForMemTableOutput max_file_size v p q,
          overlapInLevel v level (some p) (some q) = false) := by
  have hloop : ∀ fuel level, level + fuel ≤ kMaxMemCompactLevel →
      (∀ i ≤ level, overlapInLevel v i (some p) (some q) = false) →
      pickLevelLoop max_file_size v p q fuel level ≤ kMaxMemCompactLevel ∧
        ∀ i ≤ pickLevelLoop max_file_size v p q fuel level,
          overlapInLevel v i (some p) (some q) = false := by
    intro fuel
    induction fuel with
    | zero => exact fun level hle h => ⟨hle, h⟩
    | succ fuel ih =>
      intro level hle h
      rw [pickLevelLoop]
      split_ifs with h1 h2
      · exact ⟨by omega, h⟩
      · exact ⟨by omega, h⟩
      · refine ih (level + 1) (by omega) fun i hi => ?_
        rcases Nat.le_succ_iff.1 hi with hi | rfl
        · exact h i hi
        · exact Bool.not_eq_true _ ▸ h1
  rw [pickLevelForMemTableOutput]
  split_ifs with h0
  · exact ⟨Nat.zero_le _, fun h => absurd rfl h⟩
  · obtain ⟨hle, hno⟩ := hloop kMaxMemCompactLevel 0 (by omega) fun i hi => by
      rw [Nat.le_zero.1 hi]
      exact Bool.not_eq_true _ ▸ h0
    exact ⟨hle, fun _ => hno⟩

end Bourbon
