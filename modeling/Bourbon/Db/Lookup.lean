import Bourbon.Db.LevelOrder
import Bourbon.Db.Visible

/-!
# Lookups over tables and levels

A lookup asks one table after the other: the files of level 0 that may hold the user key from the
newest to the oldest, then one file of each deeper level, found by a binary search over internal
keys.  The first table that has a visible entry of the key answers.

* `tableLookup_finds` : one table answers with its newest visible entry;
* `versionLookup_finds` : in a version whose files are layered, the first answer is the newest
  visible entry of all files;
* `reads_versionLookup` : so the search answers a read.
-/

namespace Bourbon

open List

variable {K V : Type*} [LinearOrder K]

/-! ### One table -/

/-- A lookup in sorted entries: seek to the lookup key, and keep what is found if it is an entry of
the user key. -/
def tableLookup (entries : List (Entry K V)) (u : K) (s : ℕ) : Option (Entry K V) :=
  (entries.find? fun e => decide (lookupKey u s ≤ e.1)).filter fun e => e.1.user_key = u

section

variable {entries : List (Entry K V)} {u : K} {s : ℕ} {e : Entry K V}

variable (hsorted : entries.Pairwise fun a b => a.1 < b.1)
include hsorted

/-- The entry that a seek finds is the first one that is not before the key. -/
theorem seek_le
    (hfind : entries.find? (fun e => decide (lookupKey u s ≤ e.1)) = some e) {e' : Entry K V}
    (he' : e' ∈ entries) (hle : lookupKey u s ≤ e'.1) : e.1 ≤ e'.1 := by
  obtain ⟨-, before, after, rfl, hbefore⟩ := List.find?_eq_some_iff_append.1 hfind
  rcases mem_append.1 he' with hmem | hmem
  · simpa [hle] using hbefore e' hmem
  · rcases mem_cons.1 hmem with rfl | hmem
    · exact le_rfl
    · exact ((pairwise_cons.1 (pairwise_append.1 hsorted).2.1).1 e' hmem).le

theorem isNewest_of_tableLookup
    (h : tableLookup entries u s = some e) : IsNewest {x | x ∈ entries} u s e := by
  obtain ⟨hfind, huser⟩ := Option.filter_eq_some_iff.1 h
  have huser : e.1.user_key = u := of_decide_eq_true huser
  have hle : lookupKey u s ≤ e.1 := by
    have := List.find?_some hfind
    exact of_decide_eq_true this
  refine ⟨mem_of_find?_eq_some hfind, huser, ?_, fun e' he' huser' hvisible => ?_⟩
  · rcases lookupKey_le_iff.1 hle with hlt | ⟨-, hvisible⟩
    · exact absurd huser hlt.ne'
    · exact hvisible
  · exact seek_le hsorted hfind he' (lookupKey_le_iff.2 (Or.inr ⟨huser'.symm, hvisible⟩))

theorem exists_tableLookup (he : e ∈ entries)
    (huser : e.1.user_key = u) (hvisible : e.1.sequence ≤ s) :
    ∃ e₀, tableLookup entries u s = some e₀ ∧ e₀.1 ≤ e.1 := by
  have hle : lookupKey u s ≤ e.1 := lookupKey_le_iff.2 (Or.inr ⟨huser.symm, hvisible⟩)
  cases hfind : entries.find? fun e => decide (lookupKey u s ≤ e.1) with
  | none =>
    have := List.find?_eq_none.1 hfind e he
    exact absurd (decide_eq_true hle) this
  | some e₀ =>
    have hle₀ : lookupKey u s ≤ e₀.1 := by
      have := List.find?_some hfind
      exact of_decide_eq_true this
    have hfirst : e₀.1 ≤ e.1 := seek_le hsorted hfind he hle
    have huser₀ : e₀.1.user_key = u :=
      le_antisymm (huser ▸ InternalKey.user_key_le hfirst) (InternalKey.user_key_le hle₀)
    exact ⟨e₀, by rw [tableLookup, hfind, Option.filter_some, if_pos (decide_eq_true huser₀)],
      hfirst⟩

/-- **One table answers with its newest visible entry.** -/
theorem tableLookup_finds :
    Finds {x | x ∈ entries} u s (tableLookup entries u s) := by
  refine ⟨fun e => isNewest_of_tableLookup hsorted, fun hnone e he huser hvisible => ?_⟩
  obtain ⟨e₀, hsome, -⟩ := exists_tableLookup hsorted he huser hvisible
  rw [hnone] at hsome
  cases hsome

omit hsorted

end

/-! ### The files to search -/

/-- The files of a level that `Version::Get` searches, in this order.  Those of level 0 are sorted
by `NewestFirst`. -/
def filesToSearch (v : Version K) (user_key : K) (ikey : InternalKey K) :
    ℕ → List (FileMetaData K)
  | 0 => ((v 0).filter fun f => f.Holds user_key).insertionSort fun a b => b.number ≤ a.number
  | level + 1 =>
    match findFileBranch (v (level + 1)) user_key ikey with
    | none => []
    | some index => (v (level + 1))[index]?.toList

/-- The files of all levels that are searched, with their levels. -/
def searchOrder (v : Version K) (user_key : K) (ikey : InternalKey K) :
    List (ℕ × FileMetaData K) :=
  (List.range kNumLevels).flatMap fun level => (filesToSearch v user_key ikey level).map (level, ·)

/-- The first answer. -/
def versionLookup (tables : ℕ → List (Entry K V)) (v : Version K) (u : K) (s : ℕ) :
    Option (Entry K V) :=
  (searchOrder v u (lookupKey u s)).findSome? fun p => tableLookup (tables p.2.number) u s

/-- The entries of all files of a version. -/
def versionEntries (tables : ℕ → List (Entry K V)) (v : Version K) : Set (Entry K V) :=
  {e | ∃ level < kNumLevels, ∃ f ∈ v level, e ∈ tables f.number}

/-- The files of a version are layered: sorted and disjoint from level 1 on, and for every user key
newer in shallower levels and in level-0 files with larger numbers. -/
structure Layered (tables : ℕ → List (Entry K V)) (v : Version K) : Prop where
  table : ∀ level < kNumLevels, ∀ f ∈ v level, IsTableOf f (tables f.number)
  ordered : ∀ level < kNumLevels, level ≠ 0 → Ordered (v level)
  zero : ∀ f ∈ v 0, ∀ g ∈ v 0, g.number < f.number →
    ∀ e ∈ tables f.number, ∀ e' ∈ tables g.number, Newer e e'
  levels : ∀ a b, a < b → b < kNumLevels → ∀ f ∈ v a, ∀ g ∈ v b,
    ∀ e ∈ tables f.number, ∀ e' ∈ tables g.number, Newer e e'

section

variable {tables : ℕ → List (Entry K V)} {v : Version K} {u : K} {s : ℕ}

theorem mem_filesToSearch {ikey : InternalKey K} {level : ℕ} {f : FileMetaData K}
    (h : f ∈ filesToSearch v u ikey level) : f ∈ v level := by
  cases level with
  | zero =>
    rw [filesToSearch, mem_insertionSort] at h
    exact (mem_filter.1 h).1
  | succ level =>
    rw [filesToSearch] at h
    cases hbranch : findFileBranch (v (level + 1)) u ikey with
    | none =>
      rw [hbranch] at h
      cases h
    | some index =>
      rw [hbranch] at h
      exact mem_of_getElem? (Option.mem_toList.1 h)

theorem length_filesToSearch_succ (ikey : InternalKey K) (level : ℕ) :
    (filesToSearch v u ikey (level + 1)).length ≤ 1 := by
  rw [filesToSearch]
  cases findFileBranch (v (level + 1)) u ikey with
  | none => exact Nat.zero_le 1
  | some index => cases (v (level + 1))[index]? <;> simp

theorem mem_searchOrder {ikey : InternalKey K} {p : ℕ × FileMetaData K} :
    p ∈ searchOrder v u ikey ↔ p.1 < kNumLevels ∧ p.2 ∈ filesToSearch v u ikey p.1 := by
  obtain ⟨level, f⟩ := p
  simp [searchOrder]

namespace Layered

/-- The file of a deeper level that a visible entry makes the search read: the binary search stops
at the first file that ends at or behind the lookup key. -/
theorem exists_file_succ (h : Layered tables v) {level : ℕ} (hlevel : level + 1 < kNumLevels)
    {f : FileMetaData K} (hf : f ∈ v (level + 1)) {e : Entry K V} (he : e ∈ tables f.number)
    (huser : e.1.user_key = u) (hvisible : e.1.sequence ≤ s) :
    ∃ g ∈ filesToSearch v u (lookupKey u s) (level + 1), ∃ e₀,
      tableLookup (tables g.number) u s = some e₀ ∧ e₀.1 ≤ e.1 := by
  have hord := h.ordered (level + 1) hlevel (Nat.succ_ne_zero level)
  have htable := h.table (level + 1) hlevel
  obtain ⟨-, hbefore, hbehind⟩ := findFile_spec (lookupKey u s)
    (hord.largest_sorted fun f hf => (htable f hf).nonempty)
  have hkey : lookupKey u s ≤ e.1 := lookupKey_le_iff.2 (Or.inr ⟨huser.symm, hvisible⟩)
  obtain ⟨i, hi⟩ := mem_iff_getElem?.1 hf
  set index := findFile (v (level + 1)) (lookupKey u s) with hindex
  have hle : index ≤ i := by
    by_contra hlt
    exact absurd (hkey.trans ((htable f hf).range e he).2)
      (not_le.2 (hbefore i f hi (not_le.1 hlt)))
  have hi' : i < (v (level + 1)).length := (List.getElem?_eq_some_iff.1 hi).1
  set g := (v (level + 1))[index] with hg
  have hget : (v (level + 1))[index]? = some g := List.getElem?_eq_getElem (hle.trans_lt hi')
  have hgmem : g ∈ v (level + 1) := mem_of_getElem? hget
  have hlargest : lookupKey u s ≤ g.largest := hbehind index g hget le_rfl
  -- the file found is the file of the entry or an earlier one
  have hsmallest : g.smallest ≤ e.1 := by
    rcases hle.eq_or_lt with heq | hlt
    · rw [heq, hi, Option.some.injEq] at hget
      rw [← hget]
      exact ((htable f hf).range e he).1
    · have hgf : g.largest < f.smallest := by
        have := pairwise_iff_getElem.1 hord index i (hle.trans_lt hi') hi' hlt
        rwa [(List.getElem?_eq_some_iff.1 hi).2] at this
      exact (htable g hgmem).nonempty.trans
        (hgf.le.trans ((htable f hf).range e he).1)
  refine ⟨g, ?_, ?_⟩
  · have hnot : ¬ u < g.smallest.user_key := by
      rw [not_lt, ← huser]
      exact InternalKey.user_key_le hsmallest
    have hbranch : findFileBranch (v (level + 1)) u (lookupKey u s) = some index := by
      rw [findFileBranch]
      simp only [← hindex, hget, if_neg hnot]
    rw [filesToSearch, hbranch]
    simp only [hget, Option.toList_some, mem_singleton]
  · rcases hle.eq_or_lt with heq | hlt
    · rw [heq, hi, Option.some.injEq] at hget
      rw [← hget]
      exact exists_tableLookup (htable f hf).sorted he huser hvisible
    · -- the entry at the end of an earlier file has the user key, too
      obtain ⟨x, hx, hxkey⟩ := (htable g hgmem).largest_mem
      have hgf : g.largest < f.smallest := by
        have := pairwise_iff_getElem.1 hord index i (hle.trans_lt hi') hi' hlt
        rwa [(List.getElem?_eq_some_iff.1 hi).2] at this
      have hxe : x.1 ≤ e.1 := hxkey ▸ hgf.le.trans ((htable f hf).range e he).1
      have hxlookup : lookupKey u s ≤ x.1 := hxkey ▸ hlargest
      have hxuser : x.1.user_key = u := le_antisymm (huser ▸ InternalKey.user_key_le hxe)
        (InternalKey.user_key_le hxlookup)
      have hxvisible : x.1.sequence ≤ s := by
        rcases lookupKey_le_iff.1 hxlookup with hlt | ⟨-, hle⟩
        · exact absurd hxuser hlt.ne'
        · exact hle
      obtain ⟨e₀, hsome, hfirst⟩ :=
        exists_tableLookup (htable g hgmem).sorted hx hxuser hxvisible
      exact ⟨e₀, hsome, hfirst.trans hxe⟩

/-- **Every visible entry is covered** by a file that the search reads. -/
theorem exists_file (h : Layered tables v) {e : Entry K V} (he : e ∈ versionEntries tables v)
    (huser : e.1.user_key = u) (hvisible : e.1.sequence ≤ s) :
    ∃ p ∈ searchOrder v u (lookupKey u s), ∃ e₀,
      tableLookup (tables p.2.number) u s = some e₀ ∧ e₀.1 ≤ e.1 := by
  obtain ⟨level, hlevel, f, hf, he⟩ := he
  cases level with
  | zero =>
    have htable := h.table 0 hlevel f hf
    have hholds : f.Holds u := by
      refine ⟨huser ▸ InternalKey.user_key_le (htable.range e he).1,
        huser ▸ InternalKey.user_key_le (htable.range e he).2⟩
    refine ⟨(0, f), mem_searchOrder.2 ⟨hlevel, ?_⟩,
      exists_tableLookup htable.sorted he huser hvisible⟩
    rw [filesToSearch, mem_insertionSort]
    exact mem_filter.2 ⟨hf, decide_eq_true hholds⟩
  | succ level =>
    obtain ⟨g, hg, hsome⟩ := h.exists_file_succ hlevel hf he huser hvisible
    exact ⟨(level + 1, g), mem_searchOrder.2 ⟨hlevel, hg⟩, hsome⟩

/-- An entry that is found in an earlier file is not behind one that is found in a later file. -/
theorem searchOrder_pairwise (h : Layered tables v) :
    (searchOrder v u (lookupKey u s)).Pairwise fun p q => ∀ e e',
      tableLookup (tables p.2.number) u s = some e →
      tableLookup (tables q.2.number) u s = some e' → e.1 ≤ e'.1 := by
  -- the answers are entries of `u`, so that the newer one comes first
  have hanswer : ∀ {level : ℕ} {f : FileMetaData K} {e : Entry K V}, level < kNumLevels →
      f ∈ filesToSearch v u (lookupKey u s) level →
      tableLookup (tables f.number) u s = some e → e ∈ tables f.number ∧ e.1.user_key = u := by
    intro level f e hlevel hf hsome
    have := isNewest_of_tableLookup (h.table level hlevel f (mem_filesToSearch hf)).sorted hsome
    exact ⟨this.mem, this.user_key⟩
  refine pairwise_flatMap.2 ⟨fun level hlevel => ?_, ?_⟩
  · have hlevel : level < kNumLevels := mem_range.1 hlevel
    rw [pairwise_map]
    cases level with
    | zero =>
      have hsort : (filesToSearch v u (lookupKey u s) 0).Pairwise
          fun f g => g.number ≤ f.number := by
        have : Std.Total fun f g : FileMetaData K => g.number ≤ f.number :=
          ⟨fun f g => Nat.le_total g.number f.number⟩
        have : IsTrans (FileMetaData K) fun f g => g.number ≤ f.number :=
          ⟨fun _ _ _ hab hbc => Nat.le_trans hbc hab⟩
        exact pairwise_insertionSort (fun f g : FileMetaData K => g.number ≤ f.number) _
      refine hsort.imp_of_mem fun {f g} hf hg hnumber e e' he he' => ?_
      obtain ⟨hein, heuser⟩ := hanswer hlevel hf he
      obtain ⟨hein', heuser'⟩ := hanswer hlevel hg he'
      rcases (show g.number ≤ f.number from hnumber).eq_or_lt with heq | hlt
      · simp only [heq, he, Option.some.injEq] at he'
        rw [he']
      · exact (h.zero f (mem_filesToSearch hf) g (mem_filesToSearch hg) hlt e hein e' hein').le
          (heuser.trans heuser'.symm)
    | succ level =>
      have hlen := length_filesToSearch_succ (v := v) (u := u) (lookupKey u s) level
      match hfiles : filesToSearch v u (lookupKey u s) (level + 1) with
      | [] => exact List.Pairwise.nil
      | [f] => exact pairwise_singleton _ f
      | f :: g :: rest =>
        rw [hfiles] at hlen
        simp at hlen
  · refine pairwise_lt_range.imp_of_mem fun {a b} _ hb hab => ?_
    have hb : b < kNumLevels := mem_range.1 hb
    simp only [mem_map]
    rintro - ⟨f, hf, rfl⟩ - ⟨g, hg, rfl⟩ e e' he he'
    obtain ⟨hein, heuser⟩ := hanswer (hab.trans hb) hf he
    obtain ⟨hein', heuser'⟩ := hanswer hb hg he'
    exact (h.levels a b hab hb f (mem_filesToSearch hf) g (mem_filesToSearch hg) e hein e' hein').le
      (heuser.trans heuser'.symm)

end Layered

omit [LinearOrder K] in
/-- In a list whose answers come in order, the first answer is before every other one. -/
theorem findSome?_rel {α β : Type*} {r : β → β → Prop} (hrefl : ∀ x, r x x) {f : α → Option β}
    {l : List α} (hl : l.Pairwise fun a b => ∀ x y, f a = some x → f b = some y → r x y)
    {x y : β} {b : α} (hx : l.findSome? f = some x) (hb : b ∈ l) (hy : f b = some y) : r x y := by
  induction l with
  | nil => cases hb
  | cons a l ih =>
    obtain ⟨hhead, htail⟩ := pairwise_cons.1 hl
    rw [List.findSome?_cons] at hx
    cases ha : f a with
    | some z =>
      rw [ha] at hx
      obtain rfl : z = x := Option.some.inj hx
      rcases mem_cons.1 hb with rfl | hb
      · obtain rfl : z = y := Option.some.inj (ha.symm.trans hy)
        exact hrefl z
      · exact hhead b hb z y ha hy
    | none =>
      rw [ha] at hx
      rcases mem_cons.1 hb with rfl | hb
      · rw [ha] at hy
        cases hy
      · exact ih htail hx hb

/-- **The search of a version finds the newest visible entry of all files.** -/
theorem versionLookup_finds (h : Layered tables v) :
    Finds (versionEntries tables v) u s (versionLookup tables v u s) := by
  constructor
  · intro e hsome
    obtain ⟨p, hp, hanswer⟩ := exists_of_findSome?_eq_some hsome
    obtain ⟨hlevel, hfile⟩ := mem_searchOrder.1 hp
    have hmem := mem_filesToSearch hfile
    have hnewest := isNewest_of_tableLookup (h.table p.1 hlevel p.2 hmem).sorted hanswer
    refine ⟨⟨p.1, hlevel, p.2, hmem, hnewest.mem⟩, hnewest.user_key, hnewest.visible,
      fun e' he' huser hvisible => ?_⟩
    obtain ⟨q, hq, e₀, hcover, hle⟩ := h.exists_file he' huser hvisible
    exact (findSome?_rel (r := fun a b : Entry K V => a.1 ≤ b.1) (fun _ => le_rfl)
      h.searchOrder_pairwise hsome hq hcover).trans hle
  · intro hnone e he huser hvisible
    obtain ⟨q, hq, e₀, hcover, -⟩ := h.exists_file he huser hvisible
    have := List.findSome?_eq_none_iff.1 hnone q hq
    rw [hcover] at this
    cases this

theorem Layered.unique (h : Layered tables v) : ∀ e ∈ versionEntries tables v,
    ∀ e' ∈ versionEntries tables v, e.1 = e'.1 → e = e' := by
  -- two files with a common key would be newer than each other
  have hnewer : ∀ {e e' : Entry K V}, e.1 = e'.1 → ¬ Newer e e' := fun {e e'} heq hnewer => by
    have := hnewer (by rw [heq])
    rw [heq] at this
    exact lt_irrefl _ this
  rintro e ⟨a, ha, f, hf, he⟩ e' ⟨b, hb, g, hg, he'⟩ heq
  rcases lt_trichotomy a b with hab | rfl | hab
  · exact absurd (h.levels a b hab hb f hf g hg e he e' he') (hnewer heq)
  · have hsame : ∀ {f : FileMetaData K}, f ∈ v a → e ∈ tables f.number → e' ∈ tables f.number →
        e = e' := fun hf he he' => eq_of_sorted (h.table a ha _ hf).sorted he he' heq
    rcases Nat.eq_zero_or_pos a with rfl | hpos
    · rcases lt_trichotomy f.number g.number with hfg | hfg | hfg
      · exact absurd (h.zero g hg f hf hfg e' he' e he) (hnewer heq.symm)
      · exact hsame hf he (hfg ▸ he')
      · exact absurd (h.zero f hf g hg hfg e he e' he') (hnewer heq)
    · by_cases hfg : f = g
      · exact hsame hf he (hfg ▸ he')
      · have hef := (h.table a ha f hf).range e he
        have heg := (h.table a ha g hg).range e' he'
        rcases (h.ordered a ha hpos.ne').apart hf hg hfg with hlt | hlt
        · exact absurd (hef.2.trans_lt (hlt.trans_le heg.1)) (heq ▸ lt_irrefl _)
        · exact absurd (heg.2.trans_lt (hlt.trans_le hef.1)) (heq ▸ lt_irrefl _)
  · exact absurd (h.levels b a hab ha g hg f hf e' he' e he) (hnewer heq.symm)

/-- **The search of a version answers a read.** -/
theorem reads_versionLookup (h : Layered tables v) (r : Option V) :
    Reads (versionEntries tables v) u s r ↔ r = answer (versionLookup tables v u s) :=
  (versionLookup_finds h).reads_iff h.unique r

end

end Bourbon
