import Mathlib.Data.List.Induction
import Mathlib.Data.List.Sort
import Bourbon.Db.VersionEdit

/-!
# The manifest

The manifest is the log of version edits.  `LogAndApply` makes a new version with one builder for
each edit; `Recover` applies all edits to one builder and calls `SaveTo` once.

* `Builder`, `recoverVersion` : the builder and the version that recovery makes;
* `Loggable` : no file number is added twice to a level;
* `saveTo_eq_foldl` : one builder makes the same version as one builder for each edit;
* `recoverVersion_eq` : the same for recovery, with and without a snapshot at the start.
-/

namespace Bourbon

open List Function

variable {K : Type*} [LinearOrder K]

/-- `LevelState`. -/
structure LevelState (K : Type*) where
  deleted_files : List ℕ
  added_files : List (FileMetaData K)

/-- `VersionSet::Builder`. -/
structure Builder (K : Type*) where
  base : Version K
  levels : ℕ → LevelState K

namespace Builder

/-- A builder on a base version. -/
def new (base : Version K) : Builder K := ⟨base, fun _ => ⟨[], []⟩⟩

/-- One deleted file of `Apply`. -/
def deleteFile (b : Builder K) (p : ℕ × ℕ) : Builder K :=
  { b with
    levels := update b.levels p.1
      { b.levels p.1 with deleted_files := p.2 :: (b.levels p.1).deleted_files } }

/-- One new file of `Apply`: its number is not deleted any more. -/
def addFile (b : Builder K) (p : ℕ × FileMetaData K) : Builder K :=
  { b with
    levels := update b.levels p.1
      ⟨(b.levels p.1).deleted_files.filter (fun number => number != p.2.number),
        insertFile p.2 (b.levels p.1).added_files⟩ }

/-- `Apply`: deletions first. -/
def apply (b : Builder K) (edit : VersionEdit K) : Builder K :=
  edit.new_files.foldl addFile (edit.deleted_files.foldl deleteFile b)

/-- `SaveTo`. -/
def saveTo (b : Builder K) : Version K := fun level =>
  saveLevel (fun number => (b.levels level).deleted_files.contains number) (b.base level)
    (b.levels level).added_files

end Builder

/-- The version that `VersionSet::Recover` makes from the edits of the manifest. -/
def recoverVersion (edits : List (VersionEdit K)) : Version K :=
  (edits.foldl Builder.apply (Builder.new fun _ => [])).saveTo

/-- The version that `LogAndApply` makes: a builder of its own for the edit. -/
def nextVersion (v : Version K) (edit : VersionEdit K) : Version K :=
  ((Builder.new v).apply edit).saveTo

/-- The edit of `WriteSnapshot`: all files of the version. -/
def writeSnapshot (v : Version K) : VersionEdit K :=
  ⟨[], (List.range kNumLevels).flatMap fun level => (v level).map fun f => (level, f)⟩

/-! ### What a builder has collected -/

namespace Builder

variable {b : Builder K} {edit : VersionEdit K} {level number : ℕ} {f : FileMetaData K}

omit [LinearOrder K] in
theorem foldl_deleteFile (b : Builder K) (deleted : List (ℕ × ℕ)) :
    (deleted.foldl deleteFile b).base = b.base ∧
      ∀ level, ((deleted.foldl deleteFile b).levels level).added_files =
          (b.levels level).added_files ∧
        ∀ number, number ∈ ((deleted.foldl deleteFile b).levels level).deleted_files ↔
          (level, number) ∈ deleted ∨ number ∈ (b.levels level).deleted_files := by
  induction deleted generalizing b with
  | nil => exact ⟨rfl, fun level => ⟨rfl, fun number => by simp⟩⟩
  | cons p deleted ih =>
    obtain ⟨hbase, hlevels⟩ := ih (b.deleteFile p)
    refine ⟨hbase, fun level => ?_⟩
    obtain ⟨hadded, hdeleted⟩ := hlevels level
    by_cases hlevel : level = p.1
    · subst hlevel
      refine ⟨hadded.trans (by simp [deleteFile]), fun number => (hdeleted number).trans ?_⟩
      simp only [deleteFile, update_self, mem_cons, Prod.ext_iff, true_and]
      tauto
    · refine ⟨hadded.trans (by simp [deleteFile, hlevel]), fun number => (hdeleted number).trans ?_⟩
      simp only [deleteFile, update_of_ne hlevel, mem_cons, Prod.ext_iff, hlevel,
        false_and, false_or]

theorem foldl_addFile (b : Builder K) (new : List (ℕ × FileMetaData K)) :
    (new.foldl addFile b).base = b.base ∧
      ∀ level, ((new.foldl addFile b).levels level).added_files =
          ((new.filter fun p => p.1 = level).map Prod.snd).foldl (fun s f => insertFile f s)
            (b.levels level).added_files ∧
        ∀ number, number ∈ ((new.foldl addFile b).levels level).deleted_files ↔
          number ∈ (b.levels level).deleted_files ∧ ∀ f, (level, f) ∈ new → f.number ≠ number := by
  induction new generalizing b with
  | nil => exact ⟨rfl, fun level => ⟨rfl, fun number => by simp⟩⟩
  | cons p new ih =>
    obtain ⟨hbase, hlevels⟩ := ih (b.addFile p)
    refine ⟨hbase, fun level => ?_⟩
    obtain ⟨hadded, hdeleted⟩ := hlevels level
    by_cases hlevel : level = p.1
    · subst hlevel
      refine ⟨hadded.trans (by simp [addFile]), fun number => (hdeleted number).trans ?_⟩
      simp only [addFile, update_self, mem_filter, bne_iff_ne, ne_eq, mem_cons,
        Prod.ext_iff, true_and]
      constructor
      · rintro ⟨⟨hmem, hne⟩, hnew⟩
        refine ⟨hmem, ?_⟩
        rintro f (rfl | hf)
        · exact fun heq => hne heq.symm
        · exact hnew f hf
      · rintro ⟨hmem, hnew⟩
        exact ⟨⟨hmem, fun heq => hnew p.2 (Or.inl rfl) heq.symm⟩, fun f hf => hnew f (Or.inr hf)⟩
    · refine ⟨hadded.trans (by simp [addFile, hlevel, Ne.symm hlevel]), fun number =>
        (hdeleted number).trans ?_⟩
      simp only [addFile, update_of_ne hlevel, mem_cons, Prod.ext_iff, hlevel,
        false_and, false_or]

/-- **What `Apply` adds to a builder.** -/
theorem apply_spec (b : Builder K) (edit : VersionEdit K) :
    (b.apply edit).base = b.base ∧
      ∀ level, ((b.apply edit).levels level).added_files =
          ((edit.new_files.filter fun p => p.1 = level).map Prod.snd).foldl
            (fun s f => insertFile f s) (b.levels level).added_files ∧
        ∀ number, number ∈ ((b.apply edit).levels level).deleted_files ↔
          ((level, number) ∈ edit.deleted_files ∨ number ∈ (b.levels level).deleted_files) ∧
            ∀ f, (level, f) ∈ edit.new_files → f.number ≠ number := by
  obtain ⟨hbase, hdelete⟩ := foldl_deleteFile b edit.deleted_files
  obtain ⟨hbase', hadd⟩ := foldl_addFile (edit.deleted_files.foldl deleteFile b) edit.new_files
  refine ⟨hbase'.trans hbase, fun level => ⟨?_, fun number => ?_⟩⟩
  · rw [← (hdelete level).1]
    exact (hadd level).1
  · rw [← (hdelete level).2 number]
    exact (hadd level).2 number

omit [LinearOrder K] in
theorem isDeleted_iff : edit.isDeleted level number = true ↔
    (level, number) ∈ edit.deleted_files ∧
      ∀ f, (level, f) ∈ edit.new_files → f.number ≠ number := by
  rw [VersionEdit.isDeleted, Bool.and_eq_true, contains_iff_mem, Bool.not_eq_true',
    any_eq_false]
  refine and_congr_right fun _ => ⟨fun h f hf heq => ?_, fun h p hp => ?_⟩
  · exact h (level, f) hf (by simp [heq])
  · rintro heq
    simp only [Bool.and_eq_true, decide_eq_true_eq] at heq
    exact h p.2 (heq.1 ▸ hp) heq.2

theorem nextVersion_apply (v : Version K) (edit : VersionEdit K) :
    nextVersion v edit = applyEdit v edit := by
  obtain ⟨hbase, hlevels⟩ := apply_spec (new v) edit
  funext level
  obtain ⟨hadded, hdeleted⟩ := hlevels level
  have hsame : (fun number => (((new v).apply edit).levels level).deleted_files.contains number) =
      edit.isDeleted level := by
    funext number
    rw [Bool.eq_iff_iff, contains_iff_mem, hdeleted, isDeleted_iff]
    simp [new]
  rw [nextVersion, saveTo, hbase, hadded, hsame]
  rfl

end Builder

theorem nextVersion_eq : (nextVersion : Version K → VersionEdit K → Version K) = applyEdit :=
  funext fun v => funext (Builder.nextVersion_apply v)

/-! ### One builder for all edits -/

/-- The files of a version are sorted as in a `FileSet`. -/
def SortedVersion (v : Version K) : Prop :=
  ∀ level, (v level).Pairwise fun f g => bySmallestKey f g = true

/-- No file number is added to a level twice, or to a level where the version has it. -/
structure Loggable (v : Version K) (edits : List (VersionEdit K)) : Prop where
  once : ((edits.flatMap VersionEdit.new_files).map fun p => (p.1, p.2.number)).Nodup
  fresh : ∀ p ∈ edits.flatMap VersionEdit.new_files, ∀ f ∈ v p.1, f.number ≠ p.2.number

theorem bySmallestKey_of_number_ne {f g : FileMetaData K} (hne : f.number ≠ g.number)
    (h : bySmallestKey f g = false) : bySmallestKey g f = true := by
  simp only [bySmallestKey, Bool.or_eq_false_iff, Bool.and_eq_false_iff, decide_eq_false_iff_not,
    not_lt, Bool.or_eq_true, Bool.and_eq_true, decide_eq_true_eq] at h ⊢
  rcases h.1.lt_or_eq with hlt | heq
  · exact Or.inl hlt
  · refine Or.inr ⟨heq, lt_of_le_of_ne ?_ hne.symm⟩
    exact h.2.resolve_left fun hnot => hnot heq.symm

theorem saveLevel_sorted {deleted : ℕ → Bool} {base added : List (FileMetaData K)}
    (hbase : base.Pairwise fun f g => bySmallestKey f g = true)
    (hadded : added.Pairwise fun f g => bySmallestKey f g = true)
    (hne : ∀ f ∈ added, ∀ b ∈ base, b.number ≠ f.number) :
    (saveLevel deleted base added).Pairwise fun f g => bySmallestKey f g = true :=
  saveLevel_pairwise (r := fun f g => bySmallestKey f g = true)
    (fun _ _ _ => bySmallestKey_trans) hbase hadded
    (fun f hf b hb => bySmallestKey_of_number_ne (hne f hf b hb).symm) fun _ _ _ _ h => h

theorem eq_of_sortedFiles {files files' : List (FileMetaData K)}
    (h : files.Pairwise fun f g => bySmallestKey f g = true)
    (h' : files'.Pairwise fun f g => bySmallestKey f g = true)
    (hmem : ∀ f, f ∈ files ↔ f ∈ files') :
    files = files' := by
  have hirrefl : ∀ f : FileMetaData K, ¬ bySmallestKey f f = true := fun f hf =>
    Bool.false_ne_true ((bySmallestKey_irrefl f).symm.trans hf)
  have : Std.Irrefl fun f g : FileMetaData K => bySmallestKey f g = true := ⟨hirrefl⟩
  have : Std.Antisymm fun f g : FileMetaData K => bySmallestKey f g = true :=
    ⟨fun f _ hfg hgf => absurd (bySmallestKey_trans hfg hgf) (hirrefl f)⟩
  exact h.eq_of_mem_iff h' hmem

namespace Loggable

omit [LinearOrder K]

variable {v : Version K} {edits : List (VersionEdit K)} {edit : VersionEdit K}

theorem init (h : Loggable v (edits ++ [edit])) : Loggable v edits := by
  obtain ⟨honce, hfresh⟩ := h
  rw [flatMap_append] at honce hfresh
  rw [map_append] at honce
  exact ⟨honce.of_append_left, fun p hp => hfresh p (mem_append_left _ hp)⟩

theorem last_ne (h : Loggable v (edits ++ [edit])) {level : ℕ} {f : FileMetaData K}
    (hf : (level, f) ∈ edit.new_files) {g : FileMetaData K}
    (hg : g ∈ v level ∨ (level, g) ∈ edits.flatMap VersionEdit.new_files) :
    g.number ≠ f.number := by
  obtain ⟨honce, hfresh⟩ := h
  rw [flatMap_append, flatMap_singleton] at honce hfresh
  rcases hg with hg | hg
  · exact hfresh (level, f) (mem_append_right _ hf) g hg
  · rw [map_append, nodup_append] at honce
    intro heq
    refine honce.2.2 (level, g.number) (mem_map.2 ⟨_, hg, rfl⟩) (level, f.number)
      (mem_map.2 ⟨_, hf, rfl⟩) (by rw [heq])

theorem unique (h : Loggable v edits) {level : ℕ} {f g : FileMetaData K}
    (hf : (level, f) ∈ edits.flatMap VersionEdit.new_files)
    (hg : (level, g) ∈ edits.flatMap VersionEdit.new_files) (hnumber : f.number = g.number) :
    f = g :=
  (Prod.mk.inj (inj_on_of_nodup_map h.once hf hg (by simp [hnumber]))).2

end Loggable

/-- What one builder and one builder for each edit have in common. -/
structure SameFiles (v : Version K) (edits : List (VersionEdit K)) (b : Builder K)
    (w : Version K) : Prop where
  base : b.base = v
  sorted : SortedVersion w
  added_sorted : ∀ level, (b.levels level).added_files.Pairwise fun f g => bySmallestKey f g = true
  mem_added : ∀ level f, f ∈ (b.levels level).added_files ↔
    (level, f) ∈ edits.flatMap VersionEdit.new_files
  mem : ∀ level f, f ∈ b.saveTo level ↔ f ∈ w level

namespace SameFiles

variable {v w : Version K} {edits : List (VersionEdit K)} {edit : VersionEdit K} {b : Builder K}

theorem mem_or (h : SameFiles v edits b w) {level : ℕ} {f : FileMetaData K} (hf : f ∈ w level) :
    f ∈ v level ∨ (level, f) ∈ edits.flatMap VersionEdit.new_files := by
  rw [← h.mem, Builder.saveTo, mem_saveLevel, h.base, h.mem_added] at hf
  exact hf.1

theorem step (h : SameFiles v edits b w) (hlog : Loggable v (edits ++ [edit])) :
    SameFiles v (edits ++ [edit]) (b.apply edit) (applyEdit w edit) := by
  obtain ⟨hbase, hlevels⟩ := b.apply_spec edit
  have hflat : ∀ p, p ∈ (edits ++ [edit]).flatMap VersionEdit.new_files ↔
      p ∈ edits.flatMap VersionEdit.new_files ∨ p ∈ edit.new_files := fun p => by
    rw [flatMap_append, flatMap_singleton, mem_append]
  have hnew : ∀ level f, f ∈ edit.addedFiles level ↔ (level, f) ∈ edit.new_files := fun level f =>
    ⟨VersionEdit.mem_addedFiles, fun hf => (VersionEdit.mem_addedFiles_iff fun g hg _ hnumber =>
      hlog.unique ((hflat _).2 (Or.inr hg)) ((hflat _).2 (Or.inr hf)) hnumber).2 hf⟩
  have hadded : ∀ level f, f ∈ ((b.apply edit).levels level).added_files ↔
      (level, f) ∈ (edits ++ [edit]).flatMap VersionEdit.new_files := by
    intro level f
    have hmap : ∀ g, g ∈ (edit.new_files.filter fun p => p.1 = level).map Prod.snd ↔
        (level, g) ∈ edit.new_files := fun g => by
      simp only [mem_map, mem_filter, decide_eq_true_eq, Prod.exists, exists_eq_right]
    rw [(hlevels level).1, hflat, ← h.mem_added, or_comm, ← hmap]
    refine ⟨mem_foldl_insertFile, fun hf =>
      mem_foldl_insertFile_of_mem (fun g hg _ hnumber => ?_) hf⟩
    rw [hmap, h.mem_added, or_comm, ← hflat] at hf
    rw [mem_append, hmap, h.mem_added, or_comm, ← hflat] at hg
    exact hlog.unique hg hf hnumber
  refine ⟨hbase.trans h.base, fun level => ?_, fun level => ?_, hadded, fun level f => ?_⟩
  · refine saveLevel_sorted (h.sorted level) (edit.addedFiles_sorted level) fun f hf g hg => ?_
    exact hlog.last_ne ((hnew level f).1 hf) (h.mem_or hg)
  · rw [(hlevels level).1]
    exact foldl_insertFile_sorted (h.added_sorted level)
  · -- a file is new, or nothing has happened to its number but a deletion
    rw [Builder.saveTo, mem_saveLevel, mem_applyEdit, ← h.mem, Builder.saveTo, mem_saveLevel, hbase,
      hadded, hflat, hnew, h.mem_added, ← Bool.not_eq_true, ← Bool.not_eq_true, ← Bool.not_eq_true,
      contains_iff_mem, contains_iff_mem, (hlevels level).2, Builder.isDeleted_iff]
    by_cases hf : (level, f) ∈ edit.new_files
    · refine iff_of_true ⟨Or.inr (Or.inr hf), fun hnot => hnot.2 f hf rfl⟩
        ⟨Or.inr hf, fun hnot => hnot.2 f hf rfl⟩
    · by_cases hold : f ∈ b.base level ∨ (level, f) ∈ edits.flatMap VersionEdit.new_files
      · have hnumber : ∀ g, (level, g) ∈ edit.new_files → g.number ≠ f.number := fun g hg heq =>
          hlog.last_ne hg (h.base ▸ hold) heq.symm
        tauto
      · tauto

theorem eq (h : SameFiles v edits b w) (hv : SortedVersion v) (hlog : Loggable v edits) :
    b.saveTo = w := by
  funext level
  have hsorted : (b.saveTo level).Pairwise fun f g => bySmallestKey f g = true := by
    rw [Builder.saveTo, h.base]
    refine saveLevel_sorted (hv level) (h.added_sorted level) fun f hf g hg => ?_
    exact hlog.fresh (level, f) ((h.mem_added level f).1 hf) g hg
  exact eq_of_sortedFiles hsorted (h.sorted level) (h.mem level)

end SameFiles

theorem sameFiles_foldl {v : Version K} {edits : List (VersionEdit K)} (hv : SortedVersion v)
    (hlog : Loggable v edits) :
    SameFiles v edits (edits.foldl Builder.apply (Builder.new v)) (edits.foldl applyEdit v) := by
  -- induction on the edits that have been applied
  induction edits using List.reverseRecOn with
  | nil =>
    refine ⟨rfl, hv, fun _ => List.Pairwise.nil,
      fun level f => iff_of_false not_mem_nil not_mem_nil, fun level f => ?_⟩
    simp [Builder.saveTo, mem_saveLevel, Builder.new]
  | append_singleton edits edit ih =>
    rw [foldl_append, foldl_append]
    exact (ih hlog.init).step hlog

/-- **One builder makes the same version as one builder for each edit.** -/
theorem saveTo_eq_foldl {v : Version K} {edits : List (VersionEdit K)} (hv : SortedVersion v)
    (hlog : Loggable v edits) :
    (edits.foldl Builder.apply (Builder.new v)).saveTo = edits.foldl applyEdit v :=
  (sameFiles_foldl hv hlog).eq hv hlog

/-- The edits that add files one by one. -/
def addFiles (files : List (ℕ × FileMetaData K)) : List (VersionEdit K) :=
  files.map fun p => ⟨[], [p]⟩

omit [LinearOrder K] in
@[simp] theorem flatMap_addFiles (files : List (ℕ × FileMetaData K)) :
    (addFiles files).flatMap VersionEdit.new_files = files := by
  rw [addFiles, flatMap_map]
  exact flatMap_singleton' files

/-- **An edit that adds files adds them one by one.** -/
theorem applyEdit_addFiles {v : Version K} (hv : SortedVersion v)
    {files : List (ℕ × FileMetaData K)}
    (hlog : Loggable v (addFiles files)) :
    applyEdit v ⟨[], files⟩ = (addFiles files).foldl applyEdit v := by
  rw [← saveTo_eq_foldl hv hlog, ← Builder.nextVersion_apply, nextVersion, addFiles, foldl_map]
  rfl

omit [LinearOrder K] in
theorem Loggable.append {v : Version K} {edits : List (VersionEdit K)} {edit : VersionEdit K}
    (h : Loggable v edits) (honce : (edit.new_files.map fun p => (p.1, p.2.number)).Nodup)
    (hedits : ∀ p ∈ edit.new_files, ∀ q ∈ edits.flatMap VersionEdit.new_files,
      (q.1, q.2.number) ≠ (p.1, p.2.number))
    (hv : ∀ p ∈ edit.new_files, ∀ f ∈ v p.1, f.number ≠ p.2.number) :
    Loggable v (edits ++ [edit]) := by
  have hflat : (edits ++ [edit]).flatMap VersionEdit.new_files =
      edits.flatMap VersionEdit.new_files ++ edit.new_files := by
    rw [flatMap_append, flatMap_singleton]
  refine ⟨?_, fun p hp f hf => ?_⟩
  · rw [hflat, map_append, nodup_append]
    refine ⟨h.once, honce, fun a ha b hb => ?_⟩
    obtain ⟨q, hq, rfl⟩ := mem_map.1 ha
    obtain ⟨p, hp, rfl⟩ := mem_map.1 hb
    exact hedits p hp q hq
  · rw [hflat, mem_append] at hp
    rcases hp with hp | hp
    · exact h.fresh p hp f hf
    · exact hv p hp f hf

omit [LinearOrder K] in
theorem Loggable.add {v : Version K} {edits : List (VersionEdit K)} (h : Loggable v edits)
    {level : ℕ} {file : FileMetaData K}
    (hedits : ∀ p ∈ edits.flatMap VersionEdit.new_files, p.2.number ≠ file.number)
    (hv : ∀ f ∈ v level, f.number ≠ file.number) :
    Loggable v (edits ++ [⟨[], [(level, file)]⟩]) := by
  refine h.append (nodup_singleton _) (fun p hp q hq heq => ?_) fun p hp => ?_
  · rw [mem_singleton.1 hp] at heq
    exact hedits q hq (Prod.mk.inj heq).2
  · rw [mem_singleton.1 hp]
    exact hv

/-! ### Snapshots -/

/-- A version of the database: sorted levels, at most seven, and no number twice in a level. -/
structure IsVersion (v : Version K) : Prop where
  sorted : SortedVersion v
  inside : ∀ level, kNumLevels ≤ level → v level = []
  distinct : ∀ level, ((v level).map FileMetaData.number).Nodup

theorem isVersion_empty : IsVersion fun _ => ([] : List (FileMetaData K)) :=
  ⟨fun _ => List.Pairwise.nil, fun _ _ => rfl, fun _ => nodup_nil⟩

theorem IsVersion.foldl {v : Version K} (hv : IsVersion v) {edits : List (VersionEdit K)}
    (hlog : Loggable v edits)
    (hlevels : ∀ p ∈ edits.flatMap VersionEdit.new_files, p.1 < kNumLevels) :
    IsVersion (edits.foldl applyEdit v) := by
  have hsame := sameFiles_foldl hv.sorted hlog
  refine ⟨hsame.sorted, fun level hlevel => ?_, fun level => ?_⟩
  · refine eq_nil_iff_forall_not_mem.2 fun f hf => ?_
    rcases hsame.mem_or hf with hf | hf
    · rw [hv.inside level hlevel] at hf
      cases hf
    · exact absurd (hlevels _ hf) (not_lt.2 hlevel)
  · refine List.Nodup.map_on (fun f hf g hg heq => ?_)
      ((hsame.sorted level).imp fun {f g} h heq => ?_)
    · rcases hsame.mem_or hf with hf | hf
      · rcases hsame.mem_or hg with hg | hg
        · exact inj_on_of_nodup_map (hv.distinct level) hf hg heq
        · exact absurd heq (hlog.fresh _ hg f hf)
      · rcases hsame.mem_or hg with hg | hg
        · exact absurd heq.symm (hlog.fresh _ hf g hg)
        · exact hlog.unique hf hg heq
    · subst heq
      exact Bool.false_ne_true ((bySmallestKey_irrefl f).symm.trans h)

omit [LinearOrder K] in
theorem mem_writeSnapshot {v : Version K} {level : ℕ} {f : FileMetaData K} :
    (level, f) ∈ (writeSnapshot v).new_files ↔ level < kNumLevels ∧ f ∈ v level := by
  simp [writeSnapshot]

namespace IsVersion

variable {v : Version K} {edits : List (VersionEdit K)}

theorem loggable_snapshot (hv : IsVersion v) (hlog : Loggable v edits) :
    Loggable (fun _ => []) (writeSnapshot v :: edits) := by
  refine ⟨?_, fun p _ f hf => (by cases hf)⟩
  rw [flatMap_cons, map_append, nodup_append]
  refine ⟨?_, hlog.once, fun a ha b hb heq => ?_⟩
  · rw [writeSnapshot, map_flatMap]
    refine nodup_flatMap.2 ⟨fun level _ => ?_, nodup_range.imp fun {a b} hab => ?_⟩
    · rw [map_map]
      have := (hv.distinct level).map (f := fun number => (level, number))
        fun _ _ h => (Prod.mk.inj h).2
      rwa [map_map] at this
    · intro x hx hx'
      simp only [map_map, mem_map, comp_apply] at hx hx'
      obtain ⟨f, -, rfl⟩ := hx
      obtain ⟨g, -, hg⟩ := hx'
      exact hab (Prod.mk.inj hg).1.symm
  · obtain ⟨⟨level, f⟩, hf, rfl⟩ := mem_map.1 ha
    obtain ⟨q, hq, rfl⟩ := mem_map.1 hb
    obtain ⟨hlevel, hnumber⟩ := Prod.mk.inj heq
    have hf := (mem_writeSnapshot.1 hf).2
    exact hlog.fresh q hq f (hlevel ▸ hf) hnumber

/-- **A snapshot is the version it was taken of.** -/
theorem applyEdit_snapshot (hv : IsVersion v) : applyEdit (fun _ => []) (writeSnapshot v) = v := by
  have hnone : Loggable v [] := ⟨nodup_nil, fun p hp => (by cases hp)⟩
  have hlog := hv.loggable_snapshot hnone
  have hsame := sameFiles_foldl (v := fun _ => []) (fun _ => List.Pairwise.nil) hlog
  have hmem : ∀ level f, f ∈ applyEdit (fun _ => []) (writeSnapshot v) level ↔ f ∈ v level := by
    intro level f
    rw [mem_applyEdit]
    constructor
    · rintro ⟨hf | hf, -⟩
      · cases hf
      · exact (mem_writeSnapshot.1 (VersionEdit.mem_addedFiles hf)).2
    · intro hf
      have hlevel : level < kNumLevels := by
        by_contra hge
        rw [hv.inside level (not_lt.1 hge)] at hf
        cases hf
      refine ⟨Or.inr ((VersionEdit.mem_addedFiles_iff fun g hg _ hnumber => ?_).2
        (mem_writeSnapshot.2 ⟨hlevel, hf⟩)), rfl⟩
      exact inj_on_of_nodup_map (hv.distinct level) (mem_writeSnapshot.1 hg).2 hf hnumber
  funext level
  exact eq_of_sortedFiles (hsame.sorted level) (hv.sorted level) (hmem level)

end IsVersion

theorem recoverVersion_eq_foldl {edits : List (VersionEdit K)}
    (hlog : Loggable (fun _ => []) edits) :
    recoverVersion edits = edits.foldl applyEdit fun _ => [] :=
  saveTo_eq_foldl (fun _ => List.Pairwise.nil) hlog

theorem IsVersion.recoverVersion_snapshot {v : Version K} (hv : IsVersion v)
    {edits : List (VersionEdit K)} (hlog : Loggable v edits) :
    recoverVersion (writeSnapshot v :: edits) = edits.foldl applyEdit v := by
  rw [recoverVersion_eq_foldl (hv.loggable_snapshot hlog), foldl_cons, hv.applyEdit_snapshot]

/-- **Manifest replay is sequential application**, from an empty version and from the snapshot of
any version. -/
theorem recoverVersion_eq :
    (∀ edits : List (VersionEdit K), Loggable (fun _ => []) edits →
      recoverVersion edits = edits.foldl nextVersion fun _ => []) ∧
    ∀ v : Version K, IsVersion v → recoverVersion [writeSnapshot v] = v ∧
      ∀ edits, Loggable v edits →
        recoverVersion (writeSnapshot v :: edits) = edits.foldl nextVersion v := by
  rw [nextVersion_eq]
  exact ⟨fun edits => recoverVersion_eq_foldl, fun v hv =>
    ⟨hv.recoverVersion_snapshot ⟨nodup_nil, fun p hp => (by cases hp)⟩,
      fun edits hlog => hv.recoverVersion_snapshot hlog⟩⟩

namespace ManifestExample

/-- A file with a range of user keys. -/
def file (number : ℕ) (smallest largest : Bytes) : FileMetaData Bytes :=
  ⟨number, 100, ⟨smallest, 9, .value⟩, ⟨largest, 1, .value⟩⟩

/-- Two overlapping files in level 0 and one in level 1. -/
def version : Version Bytes
  | 0 => [file 5 [97] [99], file 6 [98] [100]]
  | 1 => [file 4 [97] [98]]
  | _ => []

/-- File 4 moves to level 2, file 7 is flushed, and level 0 is compacted. -/
def edits : List (VersionEdit Bytes) :=
  [⟨[(1, 4)], [(2, file 4 [97] [98])]⟩, ⟨[], [(0, file 7 [97] [97])]⟩,
    ⟨[(0, 5), (0, 6), (0, 7)], [(1, file 8 [97] [98]), (1, file 9 [99] [100])]⟩]

theorem isVersion_version : IsVersion version := by
  have hsplit : ∀ {P : ℕ → Prop}, P 0 → P 1 → (∀ level, P (level + 2)) → ∀ level, P level
    | _, h0, _, _, 0 => h0
    | _, _, h1, _, 1 => h1
    | _, _, _, h2, level + 2 => h2 level
  refine ⟨hsplit (by decide) (by decide) fun _ => List.Pairwise.nil, fun level hlevel => ?_,
    hsplit (by decide) (by decide) fun _ => nodup_nil⟩
  obtain ⟨k, rfl⟩ := Nat.exists_eq_add_of_le' (show 2 ≤ level from le_trans (by decide) hlevel)
  rfl

end ManifestExample

open ManifestExample in
theorem recoverVersion_eq_compacted :
    recoverVersion (writeSnapshot version :: edits) = edits.foldl nextVersion version ∧
      edits.foldl nextVersion version 1 = [file 8 [97] [98], file 9 [99] [100]] :=
  ⟨(recoverVersion_eq.2 version isVersion_version).2 edits ⟨by decide, by decide⟩, by decide⟩

end Bourbon
