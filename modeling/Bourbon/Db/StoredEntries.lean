import Bourbon.Db.CompactionWork
import Bourbon.Db.InputClosure
import Bourbon.Db.WriteQueue

/-!
# Entries in table files

What background work does to the entries that are in table files of the current version, without
any assumption on the arrangement of the levels: a flush adds the entries of the immutable memtable,
and an entry that is in a table file stays in one, unless a compaction drops it.

* `Filed` : file numbers are below the next one, and what a running compaction has taken from its
  inputs is written or dropped;
* `dbStep_stored` : the step lemma.
-/

namespace Bourbon

open List Function

variable {K V : Type*} [LinearOrder K]

/-! ### Inputs are files of the version -/

section Inputs

variable {v : Version K} {level max_file_size : ℕ} {inputs : List (FileMetaData K)}

theorem boundaryFiles_subset (files : List (FileMetaData K)) (fuel : ℕ) (key : InternalKey K) :
    boundaryFiles files fuel key ⊆ files := by
  induction fuel generalizing key with
  | zero => exact nil_subset _
  | succ fuel ih =>
    rw [boundaryFiles]
    cases hfind : findSmallestBoundaryFile files key with
    | none => exact nil_subset _
    | some f =>
      exact cons_subset.2 ⟨((findSmallestBoundaryFile_spec files key).2 f hfind).1, ih _⟩

theorem addBoundaryInputs_subset {files : List (FileMetaData K)} (h : inputs ⊆ files) :
    addBoundaryInputs files inputs ⊆ files := by
  rw [addBoundaryInputs]
  cases findLargestKey inputs with
  | none => exact h
  | some key => exact append_subset.2 ⟨h, boundaryFiles_subset _ _ _⟩

theorem getOverlappingInputs_subset (v : Version K) (level : ℕ)
    (start limit : Option (InternalKey K)) :
    getOverlappingInputs v level start limit ⊆ v level := by
  obtain ⟨r, -, heq, -, -⟩ := getOverlappingInputs_spec v level start limit
    (P := fun _ => True) (fun _ _ _ _ => trivial) trivial
  rw [heq]
  exact filter_subset_self _

theorem InitialInputs.subset (h : InitialInputs max_file_size v level inputs) :
    inputs ⊆ v level := by
  cases h with
  | pick hseek hpick =>
    split_ifs with h0
    · subst h0
      exact getOverlappingInputs_subset v 0 _ _
    · exact cons_subset.2 ⟨pickFile_mem hseek hpick, nil_subset _⟩
  | range hne =>
    split_ifs
    · exact List.Subset.trans (List.IsPrefix.subset <| truncateInputs_prefix _ _ _)
        (getOverlappingInputs_subset _ _ _ _)
    · exact getOverlappingInputs_subset _ _ _ _

variable {c : Compaction K}

theorem setupOtherInputs_subset (hsub : inputs ⊆ v level)
    (h : setupOtherInputs max_file_size v level inputs = some c) :
    c.inputs0 ⊆ v c.level ∧ c.inputs1 ⊆ v (c.level + 1) := by
  have hsub0 := addBoundaryInputs_subset hsub
  simp only [setupOtherInputs, Option.bind_eq_bind, Option.bind_eq_some_iff,
    Option.some.injEq] at h
  generalize addBoundaryInputs (v level) inputs = inputs0 at *
  obtain ⟨⟨smallest, largest⟩, -, ⟨all_start, all_limit⟩, -, r, -, r', -, rfl⟩ := h
  rcases expandInputs_cases max_file_size v level inputs0
    (getOverlappingInputs v (level + 1) (some smallest) (some largest)) all_start all_limit with
    heq | ⟨new_start, new_limit, -, -, -, heq⟩
  · rw [heq]
    exact ⟨hsub0, getOverlappingInputs_subset _ _ _ _⟩
  · rw [heq]
    exact ⟨addBoundaryInputs_subset (getOverlappingInputs_subset _ _ _ _),
      getOverlappingInputs_subset _ _ _ _⟩

theorem mem_makeInputIterator {tables : ℕ → List (Entry K V)} {e : Entry K V} :
    e ∈ makeInputIterator tables c ↔ ∃ f ∈ c.inputs0 ++ c.inputs1, e ∈ tables f.number := by
  rw [makeInputIterator, mem_mergeEntries]
  split_ifs
  · simp [or_and_right, exists_or]
  · simp [or_and_right, exists_or]

end Inputs

/-! ### The invariant -/

/-- The entries of the table files of the current version. -/
def DBState.storedEntries (s : DBState K V) : Set (Entry K V) :=
  {e | ∃ level, e ∈ s.levelEntries level}

/-- A running compaction, and what has been dropped so far. -/
structure Merging (o : DBOptions K V) (dropped : List (Entry K V)) (s : DBState K V)
    (st : CompactionState K V) : Prop where
  building : Building o s st
  number : ∀ f ∈ st.compaction.inputs0 ++ st.compaction.inputs1,
    f.number < s.next_file_number ∧ f.number ∉ st.numbers
  /-- Output files are not yet part of the version. -/
  fresh : ∀ level, ∀ f ∈ s.current level, f.number ∉ st.numbers
  kept : ∀ f ∈ st.compaction.inputs0 ++ st.compaction.inputs1, ∀ e ∈ s.tables f.number,
    e ∈ st.input ∨ e ∈ st.written s.tables ∨ e ∈ dropped

/-- Numbers of live files are in use; a compaction loses nothing. -/
structure Filed (o : DBOptions K V) (dropped : List (Entry K V)) (s : DBState K V) : Prop where
  number : ∀ level, ∀ f ∈ s.current level, f.number < s.next_file_number
  merging : ∀ st, s.compact = some st → Merging o dropped s st

/-- Entries in table files stay there or have been dropped. -/
def Kept (dropped : List (Entry K V)) (s s' : DBState K V) : Prop :=
  ∀ e ∈ s.storedEntries, e ∈ s'.storedEntries ∨ e ∈ dropped

section Steps

variable {o : DBOptions K V} {dropped : List (Entry K V)} {s s' : DBState K V}
  {st : CompactionState K V}

omit [LinearOrder K] in
theorem Filed.congr (h : Filed o dropped s) (hcurrent : s'.current = s.current)
    (htables : s'.tables = s.tables) (hnext : s.next_file_number ≤ s'.next_file_number)
    (hcompact : s'.compact = s.compact) : Filed o dropped s' := by
  refine ⟨fun level f hf => ?_, fun st hst => ?_⟩
  · rw [hcurrent] at hf
    exact (h.number level f hf).trans_le hnext
  · rw [hcompact] at hst
    have hm := h.merging st hst
    refine ⟨⟨?_, hm.building.nonempty, hm.building.distinct,
      fun n hn => (hm.building.number n hn).trans_le hnext⟩,
      fun f hf => ⟨(hm.number f hf).1.trans_le hnext, (hm.number f hf).2⟩, ?_, ?_⟩
    · rw [htables]
      exact hm.building.output
    · rw [hcurrent]
      exact hm.fresh
    · rw [htables]
      exact hm.kept

omit [LinearOrder K] in
theorem Kept.of_eq (hcurrent : s'.current = s.current) (htables : s'.tables = s.tables) :
    Kept dropped s s' := by
  rintro e ⟨level, f, hf, he⟩
  refine Or.inl ⟨level, f, ?_, ?_⟩
  · rw [hcurrent]
    exact hf
  · rw [htables]
    exact he

variable {level : ℕ}

theorem Filed.flush (h : Filed o dropped s) {entries : List (Entry K V)} {file : FileMetaData K}
    (hnumber : file.number = s.next_file_number) (hs : s' = s.flushTo level file entries) :
    Filed o dropped s' ∧ Kept dropped s s' ∧ ∀ e ∈ entries, e ∈ s'.storedEntries := by
  have htables : ∀ n < s.next_file_number, s'.tables n = s.tables n := by
    intro n hn
    rw [hs]
    exact update_of_ne (fun heq => by omega) _ _
  have hself : s'.tables file.number = entries := by
    rw [hs]
    exact update_self _ _ _
  have hmem : ∀ i f, f ∈ s'.current i ↔ f ∈ s.current i ∨ i = level ∧ f = file := by
    intro i f
    rw [hs]
    exact Arranged.mem_flush
  have hnext : s'.next_file_number = s.next_file_number + 1 := by rw [hs]
  have hcompact : s'.compact = s.compact := by rw [hs]
  refine ⟨⟨fun i f hf => ?_, fun st hst => ?_⟩, ?_, fun e he => ⟨level, file, ?_, ?_⟩⟩
  · rw [hnext]
    rcases (hmem i f).1 hf with hf | ⟨-, rfl⟩
    · exact Nat.lt_succ_of_lt (h.number i f hf)
    · exact hnumber.le.trans_lt (Nat.lt_succ_self _)
  · rw [hcompact] at hst
    have hm := h.merging st hst
    have houtput : ∀ n ∈ st.numbers, s'.tables n = s.tables n := fun n hn =>
      htables n (hm.building.number n hn)
    refine ⟨⟨fun f hf => ?_, hm.building.nonempty, hm.building.distinct, fun n hn => ?_⟩,
      fun f hf => ⟨?_, (hm.number f hf).2⟩, fun i f hf hin => ?_, fun f hf e he => ?_⟩
    · rw [houtput f.number (Or.inl ⟨f, hf, rfl⟩)]
      exact hm.building.output f hf
    · rw [hnext]
      exact Nat.lt_succ_of_lt (hm.building.number n hn)
    · rw [hnext]
      exact Nat.lt_succ_of_lt (hm.number f hf).1
    · rcases (hmem i f).1 hf with hf | ⟨-, rfl⟩
      · exact hm.fresh i f hf hin
      · exact (hm.building.number _ hin).ne hnumber
    · rw [htables _ (hm.number f hf).1] at he
      rw [CompactionState.written_congr houtput]
      exact hm.kept f hf e he
  · rintro e ⟨i, f, hf, he⟩
    refine Or.inl ⟨i, f, (hmem i f).2 (Or.inl hf), ?_⟩
    rw [htables _ (h.number i f hf)]
    exact he
  · exact (hmem level file).2 (Or.inr ⟨rfl, rfl⟩)
  · rw [hself]
    exact he

variable {c : Compaction K}

theorem Filed.startCompaction (h : Filed o dropped s)
    (h0 : c.inputs0 ⊆ s.current c.level) (h1 : c.inputs1 ⊆ s.current (c.level + 1))
    (is_manual : Bool) (smallest_snapshot : ℕ) :
    Filed o dropped (s.startCompaction c is_manual smallest_snapshot) := by
  refine ⟨h.number, fun st hst => ?_⟩
  have hnone := fun n => numbers_start s c is_manual smallest_snapshot n hst
  refine ⟨building_start o s c is_manual smallest_snapshot hst, fun f hf => ⟨?_, hnone _⟩,
    fun _ f _ => hnone _, fun f hf e he => Or.inl ?_⟩
  · obtain rfl := Option.some.inj hst
    rcases mem_append.1 hf with hf | hf
    · exact h.number _ f (h0 hf)
    · exact h.number _ f (h1 hf)
  · obtain rfl := Option.some.inj hst
    exact mem_makeInputIterator.2 ⟨f, hf, he⟩

variable {v : Version K} {edit : VersionEdit K} {f : FileMetaData K}

theorem mem_applyEdit_of_not_deleted (hf : f ∈ v level)
    (h : (level, f.number) ∉ edit.deleted_files) :
    f ∈ applyEdit v edit level := by
  refine mem_applyEdit.2 ⟨Or.inl hf, ?_⟩
  rw [VersionEdit.isDeleted, Bool.and_eq_false_iff]
  left
  rwa [← Bool.not_eq_true, contains_iff_mem]

theorem mem_applyEdit_of_new (hf : (level, f) ∈ edit.new_files)
    (hdistinct : ∀ g, (level, g) ∈ edit.new_files → g.number = f.number → g = f) :
    f ∈ applyEdit v edit level := by
  refine mem_applyEdit.2 ⟨Or.inr ((VersionEdit.mem_addedFiles_iff fun g hg _ hnumber =>
    hdistinct g hg hnumber).2 hf), ?_⟩
  rw [VersionEdit.isDeleted, Bool.and_eq_false_iff]
  right
  rw [Bool.not_eq_false', any_eq_true]
  exact ⟨(level, f), hf, by simp⟩

theorem Filed.moveFile (h : Filed o dropped s)
    (hidle : s.compact = none) (h0 : c.inputs0 ⊆ s.current c.level) (hone : c.inputs0.length = 1) :
    Filed o dropped (s.moveFile c) ∧ Kept dropped s (s.moveFile c) := by
  obtain ⟨file, hfile⟩ := length_eq_one_iff.1 hone
  have hmem : file ∈ s.current c.level := h0 (hfile ▸ mem_singleton_self _)
  refine ⟨⟨fun i f hf => ?_, fun st hst => ?_⟩, ?_⟩
  · rcases (mem_applyEdit.1 hf).1 with hf | hf
    · exact h.number i f hf
    · obtain ⟨g, hg, heq⟩ := mem_map.1 (VersionEdit.mem_addedFiles hf)
      obtain ⟨-, rfl⟩ := Prod.mk.inj heq
      exact h.number _ g (h0 hg)
  · rw [show (s.moveFile c).compact = s.compact from rfl, hidle] at hst
    cases hst
  · rintro e ⟨i, f, hf, he⟩
    left
    by_cases hdel : (i, f.number) = (c.level, file.number)
    · -- the entries of the file that moves
      rw [(Prod.mk.inj hdel).2] at he
      refine ⟨c.level + 1, file, mem_applyEdit_of_new ?_ fun g hg _ => ?_, he⟩
      · rw [hfile]
        exact mem_singleton_self _
      · rw [hfile] at hg
        exact (Prod.mk.inj (mem_singleton.1 hg)).2
    · refine ⟨i, f, mem_applyEdit_of_not_deleted hf fun hin => hdel ?_, he⟩
      rw [hfile] at hin
      exact mem_singleton.1 hin

theorem Filed.compactEntry (h : Filed o dropped s) (hs : s.compactEntry o = some s') :
    Filed o (dropped ++ s.droppedBy .compactEntry) s' ∧
      Kept (dropped ++ s.droppedBy .compactEntry) s s' := by
  obtain ⟨st, e, rest, hst, hinput⟩ := DBState.compactEntry_some hs
  have hm := h.merging st hst
  obtain ⟨s'', st', hs'', hround⟩ := compactEntry_round hm.building hst hinput
  obtain rfl := Option.some.inj (hs''.symm.trans hs)
  have hcurrent : s''.current = s.current := by rw [hround.state]
  have hnumbers : ∀ n < s.next_file_number, n ∉ st.numbers → n ∉ st'.numbers := by
    intro n hn hout hin
    rcases hround.numbers n hin with hin | hle
    · exact hout hin
    · omega
  have hdropped : s.droppedBy .compactEntry = if (st.dropEntry e.1).2 then [e] else [] := by
    simp only [DBState.droppedBy, hst, hinput]
  rw [hdropped]
  refine ⟨⟨fun level f hf => ?_, fun st'' hst'' => ?_⟩, ?_⟩
  · rw [hcurrent] at hf
    exact (h.number level f hf).trans_le hround.next
  · obtain rfl := Option.some.inj (hround.compact.symm.trans hst'')
    refine ⟨hround.building, fun f hf => ?_, fun level f hf => ?_, fun f hf a ha => ?_⟩
    · rw [hround.compaction] at hf
      obtain ⟨hlt, hout⟩ := hm.number f hf
      exact ⟨hlt.trans_le hround.next, hnumbers _ hlt hout⟩
    · rw [hcurrent] at hf
      exact hnumbers _ (h.number level f hf) (hm.fresh level f hf)
    · rw [hround.compaction] at hf
      obtain ⟨hlt, hout⟩ := hm.number f hf
      rw [hround.tables _ hlt hout] at ha
      rw [hround.input, hround.written, mem_append, mem_append]
      rcases hm.kept f hf a ha with hin | hwritten | hdrop
      · rw [hinput, mem_cons] at hin
        rcases hin with rfl | hin
        · right
          split_ifs
          · exact Or.inr (Or.inr (mem_singleton_self _))
          · exact Or.inl (Or.inr (mem_singleton_self _))
        · exact Or.inl hin
      · exact Or.inr (Or.inl (Or.inl hwritten))
      · exact Or.inr (Or.inr (Or.inl hdrop))
  · rintro a ⟨level, f, hf, ha⟩
    refine Or.inl ⟨level, f, ?_, ?_⟩
    · rw [hcurrent]
      exact hf
    · rw [hround.tables _ (h.number level f hf) (hm.fresh level f hf)]
      exact ha

theorem Filed.installCompactionResults (h : Filed o dropped s)
    (hs : s.installCompactionResults o = some s') : Filed o dropped s' ∧ Kept dropped s s' := by
  obtain ⟨st, hst, hinput, hs⟩ := DBState.installCompactionResults_some hs
  have hm := h.merging st hst
  obtain ⟨hgrown, hloop, hbuilder⟩ := hm.building.finishOutput
  generalize s.finishOutput o st = p at hs hgrown hloop hbuilder
  obtain ⟨s₁, st₁⟩ := p
  dsimp only at hs hgrown hloop hbuilder
  have hcurrent : s₁.current = s.current := by rw [hgrown.state]
  have hwritten : st₁.written s₁.tables = st.written s.tables := by
    rw [hgrown.written, append_nil]
  -- two outputs with one number are one file
  have hdistinct : ∀ f ∈ st₁.outputs, ∀ g ∈ st₁.outputs, g.number = f.number → g = f := by
    intro f hf g hg heq
    have hg' := hgrown.building.output g hg
    rw [heq, hgrown.building.output f hf] at hg'
    exact (Option.some.inj hg').symm
  have hnew : ∀ f ∈ st₁.outputs, f ∈ s'.current (st₁.compaction.level + 1) := by
    intro f hf
    rw [hs]
    refine mem_applyEdit_of_new (mem_map.2 ⟨f, hf, rfl⟩) fun g hg heq => ?_
    obtain ⟨g', hg', hpair⟩ := mem_map.1 hg
    obtain ⟨-, rfl⟩ := Prod.mk.inj hpair
    exact hdistinct f hf g' hg' heq
  refine ⟨⟨fun level f hf => ?_, fun st' hst' => ?_⟩, ?_⟩
  · rw [hs] at hf ⊢
    rcases (mem_applyEdit.1 hf).1 with hf | hf
    · rw [hcurrent] at hf
      exact (h.number level f hf).trans_le hgrown.next
    · obtain ⟨g, hg, heq⟩ := mem_map.1 (VersionEdit.mem_addedFiles hf)
      obtain ⟨-, rfl⟩ := Prod.mk.inj heq
      exact hgrown.building.number _ (Or.inl ⟨g, hg, rfl⟩)
  · rw [hs] at hst'
    cases hst'
  · rintro e ⟨level, f, hf, he⟩
    by_cases hdel : (level, f.number) ∈
        (DBState.compactionEdit st₁.compaction st₁.outputs).deleted_files
    · -- an input: the entry has been written or dropped
      obtain ⟨g, hg, hnumber⟩ : ∃ g ∈ st.compaction.inputs0 ++ st.compaction.inputs1,
          g.number = f.number := by
        rw [hloop.compaction] at hdel
        rcases mem_append.1 hdel with hdel | hdel
        · obtain ⟨g, hg, heq⟩ := mem_map.1 hdel
          exact ⟨g, mem_append_left _ hg, (Prod.mk.inj heq).2⟩
        · obtain ⟨g, hg, heq⟩ := mem_map.1 hdel
          exact ⟨g, mem_append_right _ hg, (Prod.mk.inj heq).2⟩
      rw [← hnumber] at he
      rcases hm.kept g hg e he with hin | hin | hin
      · rw [hinput] at hin
        cases hin
      · rw [← hwritten, CompactionState.written, hbuilder] at hin
        obtain ⟨out, hout, hin⟩ := mem_flatMap.1 (mem_append.1 hin |>.resolve_right
          not_mem_nil)
        refine Or.inl ⟨_, out, hnew out hout, ?_⟩
        rw [hs]
        exact hin
      · exact Or.inr hin
    · refine Or.inl ⟨level, f, ?_, ?_⟩
      · rw [hs]
        refine mem_applyEdit_of_not_deleted ?_ hdel
        rw [hcurrent]
        exact hf
      · rw [hs]
        show e ∈ s₁.tables f.number
        rw [hgrown.tables _ (h.number level f hf) (hm.fresh level f hf)]
        exact he

/-- **Background work keeps what is in table files**, except for what compactions drop.  A memtable
that is not there any more has been flushed. -/
theorem dbStep_stored [Inhabited V] (h : Filed o dropped s) {action : DBAction K V}
    (haction : action.isBackgroundWork = true) (hs : dbStep o s action = some s') :
    Filed o (dropped ++ s.droppedBy action) s' ∧ Kept (dropped ++ s.droppedBy action) s s' ∧
      (action = .compactMemTable → ∀ e ∈ s.immEntries, e ∈ s'.storedEntries) := by
  cases action with
  | write batch => cases haction
  | switchMemTable => cases haction
  | compactMemTable =>
    obtain ⟨entries, file, level, himm, hfile, -, hs⟩ := DBState.compactMemTable_some hs
    have hflush := h.flush (fileMetaData_number hfile) hs
    rw [show s.droppedBy .compactMemTable = [] from rfl, append_nil]
    refine ⟨hflush.1, hflush.2.1, ?_⟩
    rintro - e ⟨imm, heq, he⟩
    rw [himm, Option.some.injEq] at heq
    exact hflush.2.2 e (heq ▸ he)
  | automaticCompaction file_to_compact smallest_snapshot =>
    rw [show s.droppedBy (.automaticCompaction file_to_compact smallest_snapshot) = [] from rfl,
      append_nil]
    obtain ⟨c, hidle, hseek, hpick, -, hcase⟩ := DBState.automaticCompaction_some hs
    obtain ⟨level, inputs, hinit, hsetup⟩ := InitialInputs.of_pickCompaction hseek hpick
    obtain ⟨h0, h1⟩ := setupOtherInputs_subset hinit.subset hsetup
    rcases hcase with ⟨hmove, rfl⟩ | rfl
    · have hone : c.inputs0.length = 1 := by
        rw [Compaction.isTrivialMove, Bool.and_eq_true, Bool.and_eq_true] at hmove
        exact of_decide_eq_true hmove.1.1
      have hmoved := h.moveFile hidle h0 hone
      exact ⟨hmoved.1, hmoved.2, fun heq => by cases heq⟩
    · exact ⟨h.startCompaction h0 h1 false smallest_snapshot, Kept.of_eq rfl rfl,
        fun heq => by cases heq⟩
  | manualCompaction level start limit smallest_snapshot =>
    rw [show s.droppedBy (.manualCompaction level start limit smallest_snapshot) = [] from rfl,
      append_nil]
    obtain ⟨c, -, hc, rfl⟩ := DBState.manualCompaction_some hs
    obtain ⟨inputs, hinit, hsetup⟩ := InitialInputs.of_compactRange hc
    obtain ⟨h0, h1⟩ := setupOtherInputs_subset hinit.subset hsetup
    exact ⟨h.startCompaction h0 h1 true smallest_snapshot, Kept.of_eq rfl rfl,
      fun heq => by cases heq⟩
  | compactEntry =>
    obtain ⟨hfiled, hkept⟩ := h.compactEntry hs
    exact ⟨hfiled, hkept, fun heq => by cases heq⟩
  | installCompactionResults =>
    rw [show s.droppedBy .installCompactionResults = [] from rfl, append_nil]
    obtain ⟨hfiled, hkept⟩ := h.installCompactionResults hs
    exact ⟨hfiled, hkept, fun heq => by cases heq⟩
  | abortCompaction =>
    rw [show s.droppedBy .abortCompaction = [] from rfl, append_nil]
    simp only [dbStep, Option.some.injEq] at hs
    rw [← hs]
    exact ⟨⟨h.number, fun st hst => by cases hst⟩, Kept.of_eq rfl rfl, fun heq => by cases heq⟩

end Steps

end Bourbon
