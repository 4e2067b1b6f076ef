import Mathlib.Data.List.Nodup
import Mathlib.Data.List.Pairwise
import Mathlib.Data.List.TakeWhile
import Bourbon.Db.FileMetaData

/-!
# Version edits

A version is the list of table files of each level.  `VersionSet::Builder` applies an edit, a set of
deleted and a list of new files, to a version: `Apply` collects the edit level by level, `SaveTo`
merges the new files into the old ones in the order of their smallest keys and drops deleted files.

* `mem_applyEdit` : which files a version has after an edit;
* `applyEdit_of_unchanged` : levels that the edit does not name keep their list of files;
* `applyEdit_ordered` : a level stays ordered if the new files are apart from the files that stay.
-/

namespace Bourbon

open List

/-- The number of levels. -/
def kNumLevels : ℕ := 7

/-! ### File numbers -/

/-- `VersionSet::NewFileNumber`: the number, and the counter after it. -/
abbrev newFileNumber (next : ℕ) : ℕ × ℕ := (next, next + 1)

/-- `VersionSet::ReuseFileNumber`. -/
def reuseFileNumber (next file_number : ℕ) : ℕ :=
  if next = file_number + 1 then file_number else next

/-- `VersionSet::MarkFileNumberUsed`. -/
def markFileNumberUsed (next number : ℕ) : ℕ := if next ≤ number then number + 1 else next

/-! ### Versions -/

/-- The files of each level. -/
abbrev Version (K : Type*) := ℕ → List (FileMetaData K)

/-- The parts of a `VersionEdit` that change files: level and number of deleted files, level and
data of new files. -/
structure VersionEdit (K : Type*) where
  deleted_files : List (ℕ × ℕ)
  new_files : List (ℕ × FileMetaData K)

variable {K : Type*} [LinearOrder K]

/-- `BySmallestKey`: by smallest key, ties by file number. -/
def bySmallestKey (f g : FileMetaData K) : Bool :=
  f.smallest < g.smallest || (f.smallest = g.smallest && f.number < g.number)

/-- Insertion into a `FileSet`. -/
def insertFile (f : FileMetaData K) : List (FileMetaData K) → List (FileMetaData K)
  | [] => [f]
  | g :: files =>
    if bySmallestKey f g then f :: g :: files
    else if bySmallestKey g f then g :: insertFile f files
    else g :: files

namespace VersionEdit

/-- `added_files` of a level after `Apply`. -/
def addedFiles (edit : VersionEdit K) (level : ℕ) : List (FileMetaData K) :=
  ((edit.new_files.filter fun p => p.1 = level).map Prod.snd).foldl (fun s f => insertFile f s) []

/-- `deleted_files` of a level after `Apply`: adding a file takes its number out again. -/
def isDeleted (edit : VersionEdit K) (level number : ℕ) : Bool :=
  edit.deleted_files.contains (level, number) &&
    !(edit.new_files.any fun p => p.1 = level && p.2.number = number)

/-- The levels that `ApplyToModel` sees as changed. -/
def changes (edit : VersionEdit K) (level : ℕ) : Bool :=
  edit.deleted_files.any (fun p => p.1 = level) || edit.new_files.any fun p => p.1 = level

end VersionEdit

/-- `SaveTo` for one level: base files that are not behind an added file come before it; deleted
files are dropped. -/
def saveLevel (deleted : ℕ → Bool) :
    List (FileMetaData K) → List (FileMetaData K) → List (FileMetaData K)
  | base, [] => base.filter fun f => !deleted f.number
  | base, f :: added =>
    ((base.takeWhile fun b => !bySmallestKey f b) ++ [f]).filter (fun f => !deleted f.number) ++
      saveLevel deleted (base.dropWhile fun b => !bySmallestKey f b) added

/-- The version after an edit. -/
def applyEdit (v : Version K) (edit : VersionEdit K) : Version K := fun level =>
  saveLevel (edit.isDeleted level) (v level) (edit.addedFiles level)

/-! ### Files after an edit -/

variable {f g : FileMetaData K} {files : List (FileMetaData K)}

theorem mem_insertFile
    (h : g ∈ insertFile f files) : g = f ∨ g ∈ files := by
  induction files with
  | nil => exact Or.inl (mem_singleton.1 h)
  | cons x files ih =>
    rw [insertFile] at h
    split_ifs at h with h1 h2
    · exact mem_cons.1 h
    · rcases mem_cons.1 h with rfl | h
      · exact Or.inr mem_cons_self
      · exact (ih h).imp_right (mem_cons_of_mem x)
    · exact Or.inr h

variable {new : List (FileMetaData K)}

theorem mem_foldl_insertFile
    (h : g ∈ new.foldl (fun s f => insertFile f s) files) : g ∈ new ∨ g ∈ files := by
  induction new generalizing files with
  | nil => exact Or.inr h
  | cons f new ih =>
    rcases ih h with h | h
    · exact Or.inl (mem_cons_of_mem f h)
    · rcases mem_insertFile h with rfl | h
      · exact Or.inl mem_cons_self
      · exact Or.inr h

variable {edit : VersionEdit K} {level : ℕ}

theorem VersionEdit.mem_addedFiles
    (h : f ∈ edit.addedFiles level) : (level, f) ∈ edit.new_files := by
  rcases mem_foldl_insertFile h with h | h
  · obtain ⟨⟨l, f'⟩, hmem, rfl⟩ := mem_map.1 h
    obtain ⟨hnew, hl⟩ := mem_filter.1 hmem
    simp only [decide_eq_true_eq] at hl
    subst hl
    exact hnew
  · cases h

theorem mem_insertFile_of_mem
    (h : g ∈ files) : g ∈ insertFile f files := by
  induction files with
  | nil => cases h
  | cons x files ih =>
    rw [insertFile]
    split_ifs
    · exact mem_cons_of_mem f h
    · rcases mem_cons.1 h with rfl | h
      · exact mem_cons_self
      · exact mem_cons_of_mem x (ih h)
    · exact h

/-- A set takes a file in unless another one with the same smallest key and number is there. -/
theorem mem_insertFile_self
    (h : ∀ g ∈ files, g.smallest = f.smallest → g.number = f.number → g = f) :
    f ∈ insertFile f files := by
  induction files with
  | nil => exact mem_cons_self
  | cons x files ih =>
    rw [insertFile]
    split_ifs with h1 h2
    · exact mem_cons_self
    · exact mem_cons_of_mem x (ih fun g hg => h g (mem_cons_of_mem x hg))
    · simp only [bySmallestKey, Bool.or_eq_true, Bool.and_eq_true, decide_eq_true_eq, not_or,
        not_and, not_lt] at h1 h2
      have hkey : x.smallest = f.smallest := le_antisymm h1.1 h2.1
      have hnumber : x.number = f.number := le_antisymm (h1.2 hkey.symm) (h2.2 hkey)
      rw [h x mem_cons_self hkey hnumber]
      exact mem_cons_self

theorem mem_foldl_insertFile_of_mem
    (hdistinct : ∀ f ∈ new ++ files, f.smallest = g.smallest → f.number = g.number → f = g)
    (h : g ∈ new ∨ g ∈ files) : g ∈ new.foldl (fun s f => insertFile f s) files := by
  induction new generalizing files with
  | nil => exact h.resolve_left not_mem_nil
  | cons f new ih =>
    refine ih (fun x hx => ?_) ?_
    · rcases mem_append.1 hx with hx | hx
      · exact hdistinct x (mem_append_left _ (mem_cons_of_mem f hx))
      · rcases mem_insertFile hx with rfl | hx
        · exact hdistinct x (mem_append_left _ mem_cons_self)
        · exact hdistinct x (mem_append_right _ hx)
    · rcases h with h | h
      · rcases mem_cons.1 h with rfl | h
        · exact Or.inr (mem_insertFile_self fun x hx => hdistinct x (mem_append_right _ hx))
        · exact Or.inl h
      · exact Or.inr (mem_insertFile_of_mem h)

/-- **The added files of a level**, if no two of them have the same smallest key and number. -/
theorem VersionEdit.mem_addedFiles_iff
    (hdistinct : ∀ g, (level, g) ∈ edit.new_files → g.smallest = f.smallest →
      g.number = f.number → g = f) : f ∈ edit.addedFiles level ↔ (level, f) ∈ edit.new_files := by
  refine ⟨mem_addedFiles, fun h => ?_⟩
  have hmem : ∀ g, g ∈ (edit.new_files.filter fun p => p.1 = level).map Prod.snd ↔
      (level, g) ∈ edit.new_files := by
    intro g
    simp only [mem_map, mem_filter, decide_eq_true_eq, Prod.exists, exists_eq_right]
  refine mem_foldl_insertFile_of_mem (fun g hg => ?_) (Or.inl ((hmem f).2 h))
  rw [append_nil] at hg
  exact hdistinct g ((hmem g).1 hg)

variable {deleted : ℕ → Bool} {base added : List (FileMetaData K)}

theorem mem_saveLevel :
    f ∈ saveLevel deleted base added ↔ (f ∈ base ∨ f ∈ added) ∧ deleted f.number = false := by
  induction added generalizing base with
  | nil =>
    rw [saveLevel, mem_filter, Bool.not_eq_true']
    simp
  | cons g added ih =>
    have hsplit : f ∈ base ↔ f ∈ base.takeWhile (fun b => !bySmallestKey g b) ∨
        f ∈ base.dropWhile (fun b => !bySmallestKey g b) := by
      rw [← mem_append, takeWhile_append_dropWhile]
    rw [saveLevel, mem_append, mem_filter, mem_append, mem_singleton, ih,
      hsplit, mem_cons, Bool.not_eq_true']
    tauto

variable {v : Version K}

/-- **The files of a level after an edit** are old or new ones, and not deleted. -/
theorem mem_applyEdit :
    f ∈ applyEdit v edit level ↔
      (f ∈ v level ∨ f ∈ edit.addedFiles level) ∧ edit.isDeleted level f.number = false :=
  mem_saveLevel

/-- **A level that the edit does not name keeps its files.** -/
theorem applyEdit_of_unchanged (v : Version K)
    (h : edit.changes level = false) : applyEdit v edit level = v level := by
  rw [VersionEdit.changes, Bool.or_eq_false_iff, any_eq_false, any_eq_false] at h
  have hadded : edit.addedFiles level = [] := by
    have : (edit.new_files.filter fun p => p.1 = level) = [] :=
      filter_eq_nil_iff.2 fun p hp => by simpa using h.2 p hp
    rw [VersionEdit.addedFiles, this]
    rfl
  have hdeleted : ∀ number, edit.isDeleted level number = false := by
    intro number
    have : edit.deleted_files.contains (level, number) = false := by
      rw [← Bool.not_eq_true, contains_iff_mem]
      intro hmem
      simpa using h.1 _ hmem
    rw [VersionEdit.isDeleted, this, Bool.false_and]
  rw [applyEdit, hadded, saveLevel]
  exact filter_eq_self.2 fun f _ => by rw [hdeleted, Bool.not_false]

/-! ### Order within a level -/

/-- The files of a level are sorted and do not overlap. -/
def Ordered (files : List (FileMetaData K)) : Prop :=
  files.Pairwise fun f g => f.largest < g.smallest

instance (files : List (FileMetaData K)) : Decidable (Ordered files) :=
  inferInstanceAs (Decidable (List.Pairwise _ _))

/-- One of the two files ends before the other begins. -/
def Apart (f g : FileMetaData K) : Prop := f.largest < g.smallest ∨ g.largest < f.smallest

theorem Apart.symm (h : Apart f g) : Apart g f := Or.symm h

theorem Ordered.apart (h : Ordered files)
    (hf : f ∈ files) (hg : g ∈ files) (hne : f ≠ g) : Apart f g := by
  have hpair : files.Pairwise Apart := h.imp Or.inl
  have : Std.Symm (Apart (K := K)) := ⟨fun _ _ => Apart.symm⟩
  exact hpair.forall hf hg hne

theorem bySmallestKey_le (h : bySmallestKey f g = true) :
    f.smallest ≤ g.smallest := by
  simp only [bySmallestKey, Bool.or_eq_true, Bool.and_eq_true, decide_eq_true_eq] at h
  rcases h with h | ⟨h, -⟩
  · exact h.le
  · exact h.le

theorem le_of_not_bySmallestKey (h : bySmallestKey f g = false) :
    g.smallest ≤ f.smallest := by
  simp only [bySmallestKey, Bool.or_eq_false_iff, decide_eq_false_iff_not, not_lt] at h
  exact h.1

theorem bySmallestKey_irrefl (f : FileMetaData K) : bySmallestKey f f = false := by
  simp [bySmallestKey]

theorem bySmallestKey_trans {h : FileMetaData K} (h1 : bySmallestKey f g = true)
    (h2 : bySmallestKey g h = true) : bySmallestKey f h = true := by
  simp only [bySmallestKey, Bool.or_eq_true, Bool.and_eq_true, decide_eq_true_eq] at h1 h2 ⊢
  rcases h1 with h1 | ⟨h1, n1⟩
  · rcases h2 with h2 | ⟨h2, -⟩
    · exact Or.inl (h1.trans h2)
    · exact Or.inl (h2 ▸ h1)
  · rw [h1]
    exact h2.imp_right fun h2 => ⟨h2.1, n1.trans h2.2⟩

theorem insertFile_sorted
    (h : files.Pairwise fun f g => bySmallestKey f g = true) :
    (insertFile f files).Pairwise fun f g => bySmallestKey f g = true := by
  induction files with
  | nil => exact pairwise_singleton _ _
  | cons g files ih =>
    obtain ⟨hg, hrest⟩ := pairwise_cons.1 h
    rw [insertFile]
    split_ifs with h1 h2
    · refine pairwise_cons.2 ⟨fun x hx => ?_, h⟩
      rcases mem_cons.1 hx with rfl | hx
      · exact h1
      · exact bySmallestKey_trans h1 (hg x hx)
    · refine pairwise_cons.2 ⟨fun x hx => ?_, ih hrest⟩
      rcases mem_insertFile hx with rfl | hx
      · exact h2
      · exact hg x hx
    · exact h

theorem foldl_insertFile_sorted
    (h : files.Pairwise fun f g => bySmallestKey f g = true) :
    (new.foldl (fun s f => insertFile f s) files).Pairwise
      fun f g => bySmallestKey f g = true := by
  induction new generalizing files with
  | nil => exact h
  | cons f new ih => exact ih (insertFile_sorted h)

theorem VersionEdit.addedFiles_sorted (edit : VersionEdit K) (level : ℕ) :
    (edit.addedFiles level).Pairwise fun f g => bySmallestKey f g = true :=
  foldl_insertFile_sorted List.Pairwise.nil

theorem saveLevel_perm (deleted : ℕ → Bool) (base added : List (FileMetaData K)) :
    (saveLevel deleted base added).Perm ((base ++ added).filter fun f => !deleted f.number) := by
  induction added generalizing base with
  | nil => rw [saveLevel, append_nil]
  | cons f added ih =>
    rw [saveLevel]
    refine (List.Perm.append_left _ (ih _)).trans ?_
    rw [← filter_append]
    refine List.Perm.filter _ ?_
    rw [append_assoc, singleton_append]
    refine perm_middle.trans ?_
    rw [← append_assoc, takeWhile_append_dropWhile]
    exact perm_middle.symm

/-- `SaveTo` merges: a relation that both lists and the comparison respect holds in the result. -/
theorem saveLevel_pairwise {r : FileMetaData K → FileMetaData K → Prop}
    (htrans : ∀ f g h, r f g → r g h → r f h) (hbase : base.Pairwise r) (hadded : added.Pairwise r)
    (hbefore : ∀ f ∈ added, ∀ b ∈ base, bySmallestKey f b = false → r b f)
    (hafter : ∀ f ∈ added, ∀ b ∈ base, bySmallestKey f b = true → r f b) :
    (saveLevel deleted base added).Pairwise r := by
  induction added generalizing base with
  | nil => exact hbase.filter _
  | cons f added ih =>
    obtain ⟨hf, hrest⟩ := pairwise_cons.1 hadded
    -- the split of the base at the new file
    have hsplit := hbase
    rw [← takeWhile_append_dropWhile (p := fun b => !bySmallestKey f b) (l := base),
      pairwise_append] at hsplit
    obtain ⟨htake, hdrop, hcross⟩ := hsplit
    have hdropped : ∀ b ∈ base.dropWhile fun b => !bySmallestKey f b, b ∈ base :=
      fun b hb => (dropWhile_suffix _).subset hb
    have hfirst : ∀ b ∈ base.takeWhile fun b => !bySmallestKey f b, r b f := by
      intro b hb
      have := mem_takeWhile_imp hb
      exact hbefore f mem_cons_self b ((List.takeWhile_prefix _).subset hb) (by simpa using this)
    have hlast : ∀ b ∈ base.dropWhile fun b => !bySmallestKey f b, r f b := by
      intro b hb
      cases hd : base.dropWhile fun b => !bySmallestKey f b with
      | nil => rw [hd] at hb; cases hb
      | cons c rest =>
        have hc : bySmallestKey f c = true := by
          have := List.head?_dropWhile_not (fun b => !bySmallestKey f b) base
          simpa [hd] using this
        have hfc := hafter f mem_cons_self c (hdropped c (hd ▸ mem_cons_self)) hc
        rw [hd] at hb hdrop
        rcases mem_cons.1 hb with rfl | hb
        · exact hfc
        · exact htrans f c b hfc ((pairwise_cons.1 hdrop).1 b hb)
    have hsaved := ih hdrop hrest
      (fun g hg b hb => hbefore g (mem_cons_of_mem f hg) b (hdropped b hb))
      fun g hg b hb => hafter g (mem_cons_of_mem f hg) b (hdropped b hb)
    rw [saveLevel, pairwise_append]
    refine ⟨List.Pairwise.filter _ ?_, hsaved, fun a ha b hb => ?_⟩
    · rw [pairwise_append]
      refine ⟨htake, pairwise_singleton _ _, fun a ha b hb => ?_⟩
      rw [mem_singleton.1 hb]
      exact hfirst a ha
    · rcases mem_append.1 (mem_of_mem_filter ha) with ha | ha
      · rcases (mem_saveLevel.1 hb).1 with hb | hb
        · exact hcross a ha b hb
        · exact htrans a f b (hfirst a ha) (hf b hb)
      · rw [mem_singleton.1 ha]
        rcases (mem_saveLevel.1 hb).1 with hb | hb
        · exact hlast b hb
        · exact hf b hb

/-- **A level stays ordered** if its new files are apart from each other and from the files that
stay. -/
theorem applyEdit_ordered
    (hbase : Ordered (v level)) (hne : ∀ f, f ∈ v level ∨ f ∈ edit.addedFiles level →
      f.smallest ≤ f.largest)
    (hnew : ∀ f ∈ edit.addedFiles level, ∀ g ∈ edit.addedFiles level, f ≠ g → Apart f g)
    (hold : ∀ f ∈ edit.addedFiles level, ∀ g ∈ v level, edit.isDeleted level g.number = false →
      Apart f g) : Ordered (applyEdit v edit level) := by
  have hsorted : (applyEdit v edit level).Pairwise fun f g => f.smallest ≤ g.smallest := by
    refine saveLevel_pairwise (r := fun f g => f.smallest ≤ g.smallest) (fun _ _ _ => le_trans) ?_
      ((edit.addedFiles_sorted level).imp bySmallestKey_le)
      (fun _ _ _ _ => le_of_not_bySmallestKey) fun _ _ _ _ => bySmallestKey_le
    exact hbase.imp_of_mem fun {f g} hf _ h => (hne f (Or.inl hf)).trans h.le
  have hirr : ∀ f, f ∈ v level ∨ f ∈ edit.addedFiles level → ¬ Apart f f := by
    intro f hf hap
    exact absurd (hne f hf) (not_le.2 (or_self_iff.1 hap))
  have hnodup : (applyEdit v edit level).Nodup := by
    refine (saveLevel_perm _ _ _).nodup_iff.2 ?_
    rw [filter_append, nodup_append]
    refine ⟨?_, ?_, fun f hf g hg heq => ?_⟩
    · refine List.Nodup.filter _ (hbase.imp_of_mem fun {f g} hf _ h heq => ?_)
      subst heq
      exact absurd (hne f (Or.inl hf)) (not_le.2 h)
    · refine List.Nodup.filter _ ((edit.addedFiles_sorted level).imp fun {f g} h heq => ?_)
      subst heq
      rw [bySmallestKey_irrefl] at h
      exact Bool.false_ne_true h
    · subst heq
      obtain ⟨hf, hdel⟩ := mem_filter.1 hf
      have hg := mem_of_mem_filter hg
      exact hirr f (Or.inl hf) (hold f hg f hf (by simpa using hdel))
  refine (hsorted.and hnodup).imp_of_mem fun {f g} hf hg hfg => ?_
  obtain ⟨hf, hfdel⟩ := mem_applyEdit.1 hf
  obtain ⟨hg, hgdel⟩ := mem_applyEdit.1 hg
  -- the order of the smallest keys decides which of the two files is first
  have hap : Apart f g := by
    rcases hf with hf | hf
    · rcases hg with hg | hg
      · exact hbase.apart hf hg hfg.2
      · exact (hold g hg f hf hfdel).symm
    · rcases hg with hg | hg
      · exact hold f hf g hg hgdel
      · exact hnew f hf g hg hfg.2
  rcases hap with h | h
  · exact h
  · exact absurd ((hne g hg).trans_lt h) (not_lt.2 hfg.1)

end Bourbon
