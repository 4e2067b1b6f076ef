import Mathlib.Data.List.GetD
import Bourbon.Lib.Bisect
import Bourbon.Db.Dbformat

/-!
# Files of a level

A `FileMetaData` (`db/version_edit.h`) describes one table file.  In a level above 0 the files are
sorted and disjoint; `findFile` (`db/version_set.cc`) searches such a list for the first file that
can hold a key, and `findFileBranch` is the baseline choice of the file to read in `Version::Get`.

* `findFile_spec` : everything before the result ends before the key, nothing after it does;
* `findFileBranch_iff` : in a level with distinct boundary keys, the baseline choice is the file
  whose user-key range contains the key.
-/

namespace Bourbon

/-- `FileMetaData` of a table file. -/
@[ext] structure FileMetaData (K : Type*) where
  number : ℕ
  /-- File size in bytes. -/
  file_size : ℕ
  /-- Smallest internal key served by table. -/
  smallest : InternalKey K
  /-- Largest internal key served by table. -/
  largest : InternalKey K
  deriving DecidableEq

variable {K : Type*} [LinearOrder K]

/-- `FindFile`: the smallest index `i` such that `files[i].largest >= key`, or the number of
files. -/
def findFile (files : List (FileMetaData K)) (key : InternalKey K) : ℕ :=
  Bisect.lowerBound (fun mid => files[mid]?.any fun f => f.largest < key) 0 files.length

/-- The choice of the file to read in a level above 0 by `FindFile`: the index of the file. -/
def findFileBranch (files : List (FileMetaData K)) (user_key : K) (ikey : InternalKey K) :
    Option ℕ :=
  let index := findFile files ikey
  match files[index]? with
  | none => none
  | some tmp2 => if user_key < tmp2.smallest.user_key then none else some index

/-- The user-key range of a file contains `u`. -/
def FileMetaData.Holds (f : FileMetaData K) (u : K) : Prop :=
  f.smallest.user_key ≤ u ∧ u ≤ f.largest.user_key

instance (f : FileMetaData K) (u : K) : Decidable (f.Holds u) :=
  inferInstanceAs (Decidable (_ ∧ _))

/-- `findFile` on files whose largest keys increase. -/
theorem findFile_spec {files : List (FileMetaData K)} (key : InternalKey K)
    (hs : files.Pairwise fun f g => f.largest ≤ g.largest) :
    findFile files key ≤ files.length ∧
      (∀ i f, files[i]? = some f → i < findFile files key → f.largest < key) ∧
      ∀ i f, files[i]? = some f → findFile files key ≤ i → key ≤ f.largest := by
  have hm : Bisect.MonoOn (fun mid => files[mid]?.any fun f => f.largest < key) 0
      files.length := by
    intro i j _ hij hj hp
    have hi : i < files.length := hij.trans_lt hj
    simp only [List.getElem?_eq_getElem hj, List.getElem?_eq_getElem hi, Option.any_some,
      decide_eq_true_eq] at hp ⊢
    rcases hij.eq_or_lt with rfl | hlt
    · exact hp
    · exact (List.pairwise_iff_getElem.1 hs i j hi hj hlt).trans_lt hp
  obtain ⟨-, h2, h3, h4⟩ := Bisect.lowerBound_spec (Nat.zero_le _) hm
  refine ⟨h2, fun i f hf hi => ?_, fun i f hf hi => ?_⟩
  · simpa [hf] using h3 i (Nat.zero_le i) hi
  · have hlt : i < files.length := (List.getElem?_eq_some_iff.1 hf).1
    simpa [hf] using h4 i hi hlt

/-- The files of a level whose boundary user keys are all distinct, in increasing order. -/
structure DistinctBounds (files : List (FileMetaData K)) : Prop where
  inside : ∀ f ∈ files, f.smallest.user_key < f.largest.user_key
  between : files.Pairwise fun f g => f.largest.user_key < g.smallest.user_key

namespace DistinctBounds

variable {files : List (FileMetaData K)} {u : K} {i j : ℕ} {f g : FileMetaData K}

theorem lt (h : DistinctBounds files) (hf : files[i]? = some f) (hg : files[j]? = some g)
    (hij : i < j) : f.largest.user_key < g.smallest.user_key := by
  obtain ⟨hi, rfl⟩ := List.getElem?_eq_some_iff.1 hf
  obtain ⟨hj, rfl⟩ := List.getElem?_eq_some_iff.1 hg
  exact List.pairwise_iff_getElem.1 h.between i j hi hj hij

theorem unique (h : DistinctBounds files) (hf : files[i]? = some f) (hg : files[j]? = some g)
    (hfu : f.Holds u) (hgu : g.Holds u) : i = j := by
  rcases lt_trichotomy i j with hij | hij | hij
  · exact absurd (hfu.2.trans_lt (h.lt hf hg hij)) (not_lt.2 hgu.1)
  · exact hij
  · exact absurd (hgu.2.trans_lt (h.lt hg hf hij)) (not_lt.2 hfu.1)

theorem largest_sorted (h : DistinctBounds files) :
    files.Pairwise fun f g => f.largest ≤ g.largest := by
  refine h.between.imp_of_mem fun {f g} _ hg hfg => ?_
  exact (InternalKey.lt_of_user_key_lt (hfg.trans (h.inside g hg))).le

/-- **The baseline choice is the file that can hold the key**, if the lookup can see the largest
entry of every file. -/
theorem findFileBranch_iff (h : DistinctBounds files) {s : ℕ}
    (hs : ∀ f ∈ files, f.largest.sequence ≤ s) :
    findFileBranch files u (lookupKey u s) = some j ↔
      ∃ f, files[j]? = some f ∧ f.Holds u := by
  obtain ⟨-, hbefore, hafter⟩ := findFile_spec (lookupKey u s) h.largest_sorted
  have hle : ∀ (i : ℕ) (f : FileMetaData K), files[i]? = some f →
      (lookupKey u s ≤ f.largest ↔ u ≤ f.largest.user_key) := by
    intro i f hf
    have := hs f (List.mem_of_getElem? hf)
    rw [lookupKey_le_iff, and_iff_left this, le_iff_lt_or_eq]
  rw [findFileBranch]
  generalize findFile files (lookupKey u s) = index at hbefore hafter ⊢
  constructor
  · intro hj
    cases hf : files[index]? with
    | none => simp [hf] at hj
    | some f =>
      simp only [hf, Option.ite_none_left_eq_some, not_lt, Option.some.injEq] at hj
      obtain ⟨hsm, rfl⟩ := hj
      exact ⟨f, hf, hsm, (hle index f hf).1 (hafter index f hf le_rfl)⟩
  · rintro ⟨f, hf, hfu⟩
    have hindex : index = j := by
      rcases lt_trichotomy index j with hlt | heq | hgt
      · -- a file before `j` ends before the key
        have hlen : index < files.length :=
          hlt.trans (List.getElem?_eq_some_iff.1 hf).1
        have hg := List.getElem?_eq_getElem hlen
        have := (hle index _ hg).1 (hafter index _ hg le_rfl)
        exact absurd (this.trans_lt (h.lt hg hf hlt)) (not_lt.2 hfu.1)
      · exact heq
      · exact absurd ((hle j f hf).2 hfu.2) (not_le.2 (hbefore j f hf hgt))
    subst hindex
    simp [hf, hfu.1]

end DistinctBounds

end Bourbon
