import Bourbon.Db.CompactionWork

/-!
# Flushes during compactions

A memtable can be flushed while a compaction is running.  The level of the new file is chosen
against the current version, which does not show yet what the compaction will write.

* An automatic compaction has no gaps between its inputs, so a flushed file that overlaps none of
  them is on one side of all of them (`Working.flush`).
* The inputs of a manual compaction can have gaps.  A file that is flushed into a gap, at the output
  level, overlaps the outputs (`levels_overlap_after_gap`), and later flushes can end up below older
  entries (`older_entry_first_after_gap`).

`FlushApart` excludes such flushes; without them the levels stay ordered (`levels_ordered_of_run`)
and newer entries are found first (`newerFirst_of_run`).
-/

namespace Bourbon

open List Function

variable {K V : Type*} [LinearOrder K]

/-- The file lies before or behind all of the inputs. -/
def Beside (inputs : List (FileMetaData K)) (file : FileMetaData K) : Prop :=
  (∀ f ∈ inputs, file.largest.user_key < f.smallest.user_key) ∨
    ∀ f ∈ inputs, f.largest.user_key < file.smallest.user_key

instance (inputs : List (FileMetaData K)) (file : FileMetaData K) :
    Decidable (Beside inputs file) :=
  inferInstanceAs (Decidable (_ ∨ _))

/-- A flush during a manual compaction does not put a file between the inputs into the output level
of the compaction. -/
def FlushApart (o : DBOptions K V) (s : DBState K V) : DBAction K V → Prop
  | .compactMemTable =>
    match s.compact, s.imm.bind (o.fileMetaData s.next_file_number) with
    | some st, some file =>
      st.is_manual = true →
        pickLevelForMemTableOutput o.max_file_size s.current file.smallest.user_key
          file.largest.user_key = st.compaction.level + 1 →
        Beside (st.compaction.inputs0 ++ st.compaction.inputs1) file
    | _, _ => True
  | _ => True

instance (o : DBOptions K V) (s : DBState K V) (a : DBAction K V) :
    Decidable (FlushApart o s a) := by
  unfold FlushApart
  cases a with
  | compactMemTable =>
    cases s.compact with
    | none => exact isTrue trivial
    | some st =>
      cases s.imm.bind (o.fileMetaData s.next_file_number) with
      | none => exact isTrue trivial
      | some file => exact inferInstanceAs (Decidable (_ → _ → _))
  | _ => exact isTrue trivial

/-- **Between inputs without gaps there is no room** for a file that overlaps none of them. -/
theorem Gapless.beside {inputs0 inputs1 : List (FileMetaData K)} {file : FileMetaData K}
    (h : Gapless (fileSet inputs0 ∪ fileSet inputs1))
    (hne : ∀ f ∈ inputs0 ++ inputs1, f.smallest ≤ f.largest) (hfile : file.smallest ≤ file.largest)
    (hside : ∀ f ∈ inputs0 ++ inputs1, f.largest.user_key < file.smallest.user_key ∨
      file.largest.user_key < f.smallest.user_key) : Beside (inputs0 ++ inputs1) file := by
  have hmem : ∀ f, f ∈ inputs0 ++ inputs1 ↔ f ∈ fileSet inputs0 ∪ fileSet inputs1 :=
    fun f => mem_append
  by_cases hbefore : ∃ f ∈ inputs0 ++ inputs1, f.largest.user_key < file.smallest.user_key
  · obtain ⟨f, hf, hlt⟩ := hbefore
    refine Or.inr fun g hg => (hside g hg).resolve_right fun hgt => ?_
    -- the smallest key of the file would be in the range of an input
    have hfile' := InternalKey.user_key_le hfile
    obtain ⟨x, hx, hholds⟩ := h f ((hmem f).1 hf) g ((hmem g).1 hg) file.smallest.user_key
      ((InternalKey.user_key_le (hne f hf)).trans hlt.le)
      (hfile'.trans (hgt.le.trans (InternalKey.user_key_le (hne g hg))))
    rcases hside x ((hmem x).2 hx) with hx | hx
    · exact absurd hholds.2 (not_le.2 hx)
    · exact absurd hholds.1 (not_le.2 (hfile'.trans_lt hx))
  · refine Or.inl fun g hg => (hside g hg).resolve_left fun hlt => ?_
    exact hbefore ⟨g, hg, hlt⟩

namespace Working

variable {o : DBOptions K V} {s : DBState K V} {st : CompactionState K V}

/-- **A flush keeps the invariant of a running compaction** if a file at the output level is beside
the inputs of a manual compaction. -/
theorem flush (h : Working o s st) (ha : Arranged s) {entries : List (Entry K V)}
    {file : FileMetaData K} {level : ℕ} (hf : FlushesTo s level file entries)
    (hmanual : st.is_manual = true → level = st.compaction.level + 1 →
      Beside (st.compaction.inputs0 ++ st.compaction.inputs1) file) :
    Working o (s.flushTo level file entries) st := by
  have hcur := ha.tables_flushTo hf
  obtain ⟨himm, hfile, hnumber, hside⟩ := hf
  have hold : ∀ n < s.next_file_number, update s.tables file.number entries n = s.tables n :=
    fun n hn => update_of_ne (by omega) _ _
  have hinputs : ∀ f ∈ st.compaction.inputs0 ++ st.compaction.inputs1,
      update s.tables file.number entries f.number = s.tables f.number ∧
        f.smallest ≤ f.largest ∧ ∃ i ≤ st.compaction.level + 1, f ∈ s.current i := by
    intro f hf
    rcases mem_append.1 hf with hf | hf
    · have := h.sub0 f hf
      exact ⟨hcur _ f this, ha.wellFormed.nonempty _ f this, _, Nat.le_succ _, this⟩
    · have := h.sub1 f hf
      exact ⟨hcur _ f this, ha.wellFormed.nonempty _ f this, _, le_rfl, this⟩
  have hwritten : st.written (update s.tables file.number entries) =
      st.written s.tables :=
    CompactionState.written_congr fun n hn => hold n (h.building.number n hn)
  refine
    { building := ⟨fun f hf => ?_, h.building.nonempty, h.building.distinct,
        fun n hn => Nat.lt_succ_of_lt (h.building.number n hn)⟩
      sub0 := fun f hf => Arranged.mem_flush.2 (Or.inl (h.sub0 f hf))
      sub1 := fun f hf => Arranged.mem_flush.2 (Or.inl (h.sub1 f hf))
      behind := fun g hg hout f hf => ?_
      apart := fun g hg hout => ?_
      gapless := h.gapless
      fresh := fun i g hg hin => ?_
      sorted := ?_
      source := fun e he => ?_ }
  · simp only [hold _ (h.building.number _ (Or.inl ⟨f, hf, rfl⟩))]
    exact h.building.output f hf
  · have hf' := h.sub0 f hf
    simp only [hcur _ f hf']
    rcases Arranged.mem_flush.1 hg with hg | ⟨-, rfl⟩
    · simp only [hcur _ g hg]
      exact h.behind g hg hout f hf
    · -- the memtable is newer than all levels
      simp only [update_self]
      exact fun e he e' he' _ => ha.imm_level e ⟨entries, himm, he⟩ _ e' ⟨f, hf', he'⟩
  · rcases Arranged.mem_flush.1 hg with hg | ⟨hlevel, rfl⟩
    · exact h.apart g hg hout
    · have hbeside : Beside (st.compaction.inputs0 ++ st.compaction.inputs1) g := by
        cases hm : st.is_manual with
        | true => exact hmanual hm hlevel.symm
        | false =>
          refine (h.gapless hm).beside (fun f hf => (hinputs f hf).2.1) hfile.nonempty ?_
          intro f hf
          obtain ⟨i, hi, hf⟩ := (hinputs f hf).2.2
          exact hside (by omega) i (by omega) f hf
      exact hbeside.imp (fun hb f hf => InternalKey.lt_of_user_key_lt (hb f hf))
        fun hb f hf => InternalKey.lt_of_user_key_lt (hb f hf)
  · rcases Arranged.mem_flush.1 hg with hg | ⟨-, rfl⟩
    · exact h.fresh i g hg hin
    · exact absurd (h.building.number _ hin) (by omega)
  · simp only [hwritten]
    exact h.sorted
  · simp only [hwritten] at he
    obtain ⟨f, hf, he⟩ := h.source e he
    refine ⟨f, hf, ?_⟩
    simp only [(hinputs f hf).1]
    exact he

end Working

/-! ### What a step does -/

section

variable {o : DBOptions K V} {s s' : DBState K V}

theorem compactMemTable_inv (ha : Arranged s) (hs : s.compactMemTable o = some s') :
    ∃ entries file level, o.fileMetaData s.next_file_number entries = some file ∧
      level = pickLevelForMemTableOutput o.max_file_size s.current file.smallest.user_key
        file.largest.user_key ∧
      FlushesTo s level file entries ∧ level ≤ kMaxMemCompactLevel ∧
      s' = s.flushTo level file entries := by
  obtain ⟨entries, file, level, himm, hfile, rfl, hs⟩ := DBState.compactMemTable_some hs
  obtain ⟨hnumber, htable⟩ := fileMetaData_spec hfile (ha.imm_sorted entries himm)
  obtain ⟨hle, hclear⟩ := ha.pickLevel o.max_file_size file
  exact ⟨entries, file, _, hfile, rfl, ⟨himm, htable, hnumber, hclear⟩, hle, hs⟩

variable {smallest_snapshot : ℕ}

theorem automaticCompaction_inv (ha : Arranged s)
    {file_to_compact : Option (ℕ × FileMetaData K)}
    (hs : s.automaticCompaction o file_to_compact smallest_snapshot = some s') :
    ∃ c, s.compact = none ∧ Chosen s.current c ∧
      Gapless (fileSet c.inputs0 ∪ fileSet c.inputs1) ∧ c.level + 1 < kNumLevels ∧
      (c.isTrivialMove o.max_file_size = true ∧ s' = s.moveFile c ∨
        s' = s.startCompaction c false smallest_snapshot) := by
  obtain ⟨c, hidle, hseek, hpick, hlevel, hcase⟩ := DBState.automaticCompaction_some hs
  obtain ⟨hc, hgap⟩ := pickCompaction_spec ha.wellFormed hseek hpick
  exact ⟨c, hidle, hc, hgap, hlevel, hcase⟩

theorem manualCompaction_inv (ha : Arranged s) {level : ℕ} {start limit : Option (InternalKey K)}
    (hs : s.manualCompaction o level start limit smallest_snapshot = some s') :
    ∃ c, Chosen s.current c ∧ c.level + 1 < kNumLevels ∧
      s' = s.startCompaction c true smallest_snapshot := by
  obtain ⟨c, hlevel, hc, rfl⟩ := DBState.manualCompaction_some hs
  obtain ⟨rfl, hchosen⟩ := compactRange_spec ha.wellFormed hc
  exact ⟨c, hchosen, hlevel, rfl⟩

theorem moveFile_inv (ha : Arranged s) {c : Compaction K} (hc : Chosen s.current c)
    {max_file_size : ℕ} (hmove : c.isTrivialMove max_file_size = true) :
    c.inputs1 = [] ∧ Installable s c c.inputs0 ∧ s.moveFile c = { s with
      compact_pointer := update s.compact_pointer c.level (some c.largest)
      current := applyEdit s.current (DBState.compactionEdit c c.inputs0) } := by
  simp only [Compaction.isTrivialMove, Bool.and_eq_true, decide_eq_true_eq] at hmove
  obtain ⟨⟨hlen0, hlen1⟩, -⟩ := hmove
  have hnil : c.inputs1 = [] := length_eq_zero_iff.1 hlen1
  obtain ⟨f, hf⟩ := length_eq_one_iff.1 hlen0
  refine ⟨hnil, ?_, ?_⟩
  · exact
      { sub0 := hc.sub
        sub1 := hc.sub_next
        behind := fun g hg hout f hf e he e' he' => ha.behind hc.sub hc.settled hg hout hf he he'
        apart := fun g hg hout => hc.apart_next ha.wellFormed hg hout
        table := fun f hf => ha.table _ f (hc.sub f hf)
        ordered := by rw [hf]; exact pairwise_singleton _ _
        source := fun f hf e he => ⟨f, mem_append_left _ hf, he⟩
        number := fun f hf => ha.number _ f (hc.sub f hf)
        fresh := fun f _ g hg => absurd hg (by rw [hnil]; exact not_mem_nil) }
  · simp [DBState.moveFile, DBState.compactionEdit, hnil]

end

/-! ### Steps -/

/-- The invariant of the database. -/
structure Consistent (o : DBOptions K V) (s : DBState K V) : Prop where
  arranged : Arranged s
  working : ∀ st, s.compact = some st → Working o s st

variable {o : DBOptions K V} {s s' : DBState K V}

theorem Consistent.compactMemTable (h : Consistent o s)
    (hok : FlushApart o s .compactMemTable) (hs : s.compactMemTable o = some s') :
    Consistent o s' := by
  obtain ⟨entries, file, level, hfile, hlevel, hf, -, rfl⟩ := compactMemTable_inv h.arranged hs
  refine ⟨h.arranged.flush hf, fun st hst => ?_⟩
  refine (h.working st hst).flush h.arranged hf fun hm heq => ?_
  simp only [FlushApart] at hok
  rw [show s.compact = some st from hst, hf.imm, Option.bind_some, hfile] at hok
  exact hok hm (hlevel ▸ heq)

theorem Consistent.start (h : Consistent o s) {c : Compaction K}
    (hc : Chosen s.current c) {is_manual : Bool}
    (hgap : is_manual = false → Gapless (fileSet c.inputs0 ∪ fileSet c.inputs1))
    (smallest_snapshot : ℕ) : Consistent o (s.startCompaction c is_manual smallest_snapshot) := by
  obtain ⟨st, hst, hw⟩ := Working.start o h.arranged hc hgap smallest_snapshot
  refine ⟨h.arranged.congr rfl rfl rfl rfl (fun _ _ _ => rfl) le_rfl, fun st' hst' => ?_⟩
  obtain rfl := Option.some.inj (hst.symm.trans hst')
  exact hw

variable {smallest_snapshot : ℕ}

theorem Consistent.automaticCompaction
    (h : Consistent o s) {file_to_compact : Option (ℕ × FileMetaData K)}
    (hs : s.automaticCompaction o file_to_compact smallest_snapshot = some s') :
    Consistent o s' := by
  obtain ⟨c, hidle, hc, hgap, -, ⟨hmove, rfl⟩ | rfl⟩ := automaticCompaction_inv h.arranged hs
  · obtain ⟨-, hinst, heq⟩ := moveFile_inv h.arranged hc hmove
    rw [heq]
    exact ⟨(h.arranged.install hinst).congr rfl rfl rfl rfl (fun _ _ _ => rfl) le_rfl,
      fun st hst => absurd (hidle.symm.trans hst) (Option.some_ne_none st).symm⟩
  · exact h.start hc (fun _ => hgap) smallest_snapshot

theorem Consistent.manualCompaction (h : Consistent o s)
    {level : ℕ} {start limit : Option (InternalKey K)}
    (hs : s.manualCompaction o level start limit smallest_snapshot = some s') :
    Consistent o s' := by
  obtain ⟨c, hc, -, rfl⟩ := manualCompaction_inv h.arranged hs
  exact h.start hc (fun hm => absurd hm (by decide)) smallest_snapshot

theorem Consistent.installable (h : Consistent o s)
    {st : CompactionState K V} (hst : s.compact = some st) (hinput : st.input = []) :
    Arranged (s.finishOutput o st).1 ∧ Installable (s.finishOutput o st).1
      (s.finishOutput o st).2.compaction (s.finishOutput o st).2.outputs := by
  obtain ⟨hw, ha⟩ := (h.working st hst).finishOutput h.arranged
  obtain ⟨-, hloop, hclosed⟩ := (h.working st hst).building.finishOutput
  exact ⟨ha, hw.installable (hloop.input.trans hinput) hclosed⟩

theorem Consistent.installCompactionResults
    (h : Consistent o s) (hs : s.installCompactionResults o = some s') : Consistent o s' := by
  obtain ⟨st, hst, hinput, rfl⟩ := DBState.installCompactionResults_some hs
  obtain ⟨ha, hinst⟩ := h.installable hst hinput
  exact ⟨(ha.install hinst).congr rfl rfl rfl rfl (fun _ _ _ => rfl) le_rfl,
    fun st' hst' => (by cases hst')⟩

/-- **Every step keeps the invariant**, if it does not flush into a gap. -/
theorem Consistent.step [Inhabited V] {a : DBAction K V}
    (h : Consistent o s) (hok : FlushApart o s a) (hs : dbStep o s a = some s') :
    Consistent o s' := by
  cases a with
  | write batch =>
    refine ⟨h.arranged.write hs, fun st hst => ?_⟩
    obtain ⟨-, rfl⟩ := DBState.write_some hs
    exact (h.working st hst).congr_state rfl rfl le_rfl
  | switchMemTable =>
    refine ⟨h.arranged.switchMemTable hs, fun st hst => ?_⟩
    obtain ⟨-, rfl⟩ := DBState.switchMemTable_some hs
    exact (h.working st hst).congr_state rfl rfl (Nat.le_succ _)
  | compactMemTable => exact h.compactMemTable hok hs
  | automaticCompaction file_to_compact smallest_snapshot => exact h.automaticCompaction hs
  | manualCompaction level start limit smallest_snapshot => exact h.manualCompaction hs
  | compactEntry =>
    obtain ⟨st, -, -, hst, -⟩ := DBState.compactEntry_some hs
    obtain ⟨ha, st', hst', hw⟩ := (h.working st hst).compactEntry h.arranged hst hs
    refine ⟨ha, fun st₁ hst₁ => ?_⟩
    obtain rfl := Option.some.inj (hst'.symm.trans hst₁)
    exact hw
  | installCompactionResults => exact h.installCompactionResults hs
  | abortCompaction =>
    obtain rfl := Option.some.inj hs
    exact ⟨h.arranged.congr rfl rfl rfl rfl (fun _ _ _ => rfl) le_rfl,
      fun st hst => (by cases hst)⟩

omit [LinearOrder K] in
theorem entries_init : (DBState.init : DBState K V).entries = ∅ := by
  refine Set.eq_empty_iff_forall_notMem.2 ?_
  rintro e (he | ⟨imm, himm, -⟩ | ⟨level, f, hf, -⟩)
  · cases he
  · cases himm
  · cases hf

theorem Consistent.init (o : DBOptions K V) : Consistent o DBState.init := by
  have hentries : ∀ e : Entry K V, e ∉ DBState.entries DBState.init := fun e he => by
    rw [entries_init] at he
    exact he
  have hlevel : ∀ i (e : Entry K V), e ∉ DBState.levelEntries DBState.init i :=
    fun i e he => hentries e (Or.inr (Or.inr ⟨i, he⟩))
  have himm : ∀ e : Entry K V, e ∉ DBState.immEntries DBState.init :=
    fun e he => hentries e (Or.inr (Or.inl he))
  refine ⟨?_, fun st hst => (by cases hst)⟩
  exact
    { mem_sorted := List.Pairwise.nil
      imm_sorted := fun imm h => (by cases h)
      table := fun _ f hf => (by cases hf)
      ordered := fun _ _ => List.Pairwise.nil
      number := fun _ f hf => (by cases hf)
      distinct := List.Pairwise.nil
      limit := Nat.zero_le _
      bounded := fun e he => absurd he (hentries e)
      unique := fun e he => absurd he (hentries e)
      mem_imm := fun e he => (by cases he)
      mem_level := fun e he => (by cases he)
      imm_level := fun e he => absurd he (himm e)
      zero := fun f hf => (by cases hf)
      levels := fun a _ _ e he => absurd he (hlevel a e) }

theorem consistent_of_run [Inhabited V] (o : DBOptions K V) {as : List (DBAction K V)}
    (hok : Steps.Meets (dbStep o) (FlushApart o) DBState.init as)
    (hrun : Steps.run (dbStep o) DBState.init as = some s) : Consistent o s :=
  Steps.invariant (fun _ _ _ => Consistent.step) (Consistent.init o) hok hrun

/-! ### Runs -/

namespace ManualGap

/-- Write the keys and flush them. -/
def flush (keys : List UInt8) : List (DBAction Bytes Bytes) :=
  [.write (keys.map fun k => .put [k] []), .switchMemTable, .compactMemTable]

/-- A manual compaction of level 0 with the inputs `a`, `y`, `y`-`z` and `z`.  After its first entry
`m` is flushed, which is between the inputs. -/
def gapRun : List (DBAction Bytes Bytes) :=
  flush [97] ++ flush [97] ++ flush [97] ++ flush [109] ++ flush [121] ++ flush [121, 122] ++
    flush [122] ++ [.manualCompaction 0 none none 8, .compactEntry] ++ flush [109] ++
    List.replicate 4 .compactEntry ++ [.installCompactionResults]

/-- The same compaction; the file that is flushed is behind the inputs. -/
def besideRun : List (DBAction Bytes Bytes) :=
  flush [123] ++ flush [97] ++ flush [97] ++ flush [97] ++ flush [109] ++ flush [121] ++
    flush [121, 122] ++ flush [122] ++ [.manualCompaction 0 none none 9, .compactEntry] ++
    flush [123] ++ List.replicate 4 .compactEntry ++ [.installCompactionResults]

/-- The user keys with which the files of a level begin and end. -/
def ranges (level : ℕ) (s : DBState Bytes Bytes) : List (Bytes × Bytes) :=
  (s.current level).map fun f => (f.smallest.user_key, f.largest.user_key)

/-- Some entry in level 1 is older than an entry of the same key in level 2. -/
def olderFirst (s : DBState Bytes Bytes) : Bool :=
  (s.current 1).any fun f => (s.current 2).any fun g =>
    (s.tables f.number).any fun e => (s.tables g.number).any fun e' =>
      e.1.user_key = e'.1.user_key && e.1.sequence < e'.1.sequence

end ManualGap

/-- **Levels stay ordered** in every run without flushes into the gaps of a manual compaction. -/
theorem levels_ordered_of_run [Inhabited V] (o : DBOptions K V) (as : List (DBAction K V))
    (s : DBState K V) (hok : Steps.Meets (dbStep o) (FlushApart o) DBState.init as)
    (hrun : Steps.run (dbStep o) DBState.init as = some s) :
    ∀ level, 1 ≤ level → Ordered (s.current level) := fun level hlevel =>
  (consistent_of_run o hok hrun).arranged.ordered level (Nat.one_le_iff_ne_zero.1 hlevel)

open ManualGap in
theorem levels_ordered_of_run_beside :
    ∃ s, Steps.run (dbStep smallTables) DBState.init besideRun = some s ∧
      ranges 1 s = [([97], [122]), ([123], [123])] ∧
      ∀ level, 1 ≤ level → Ordered (s.current level) := by
  have h : (Steps.run (dbStep smallTables) DBState.init besideRun).map (ranges 1) =
      some [([97], [122]), ([123], [123])] := by decide +kernel
  obtain ⟨s, hs, hranges⟩ := Option.map_eq_some_iff.1 h
  exact ⟨s, hs, hranges, levels_ordered_of_run smallTables besideRun s (by decide +kernel) hs⟩

open ManualGap in
/-- **A flush into a gap of a manual compaction makes the files of a level overlap.** -/
theorem levels_overlap_after_gap :
    ∃ s, Steps.run (dbStep smallTables) DBState.init gapRun = some s ∧
      ranges 1 s = [([97], [122]), ([109], [109])] ∧
      ¬ ∀ level, 1 ≤ level → Ordered (s.current level) := by
  have h : (Steps.run (dbStep smallTables) DBState.init gapRun).map
      (fun s => (ranges 1 s, decide (Ordered (s.current 1)))) =
        some ([([97], [122]), ([109], [109])], false) := by decide +kernel
  obtain ⟨s, hs, heq⟩ := Option.map_eq_some_iff.1 h
  obtain ⟨hranges, hord⟩ := Prod.mk.inj heq
  exact ⟨s, hs, hranges, fun hall => of_decide_eq_false hord (hall 1 le_rfl)⟩

/-- **Newer entries are found first** in every run without flushes into the gaps of a manual
compaction. -/
theorem newerFirst_of_run [Inhabited V] (o : DBOptions K V) (as : List (DBAction K V))
    (s : DBState K V) (hok : Steps.Meets (dbStep o) (FlushApart o) DBState.init as)
    (hrun : Steps.run (dbStep o) DBState.init as = some s) : NewerFirst s :=
  (consistent_of_run o hok hrun).arranged.newerFirst

open ManualGap in
theorem newerFirst_of_run_beside :
    ∃ s, Steps.run (dbStep smallTables) DBState.init (besideRun ++ flush [122]) = some s ∧
      (ranges 0 s, ranges 1 s) = ([([122], [122])], [([97], [122]), ([123], [123])]) ∧
      NewerFirst s := by
  have h : (Steps.run (dbStep smallTables) DBState.init (besideRun ++ flush [122])).map
      (fun s => (ranges 0 s, ranges 1 s)) =
        some ([([122], [122])], [([97], [122]), ([123], [123])]) := by decide +kernel
  obtain ⟨s, hs, hranges⟩ := Option.map_eq_some_iff.1 h
  exact ⟨s, hs, hranges, newerFirst_of_run smallTables _ s (by decide +kernel) hs⟩

open ManualGap in
/-- **After a flush into a gap an older entry is found first**: the binary search for overlaps in
the disordered level misses a file, and the next flush goes below it. -/
theorem older_entry_first_after_gap :
    ∃ s, Steps.run (dbStep smallTables) DBState.init (gapRun ++ flush [122]) = some s ∧
      ¬ NewerFirst s := by
  have h : (Steps.run (dbStep smallTables) DBState.init (gapRun ++ flush [122])).map olderFirst =
      some true := by decide +kernel
  obtain ⟨s, hs, holder⟩ := Option.map_eq_some_iff.1 h
  simp only [olderFirst, any_eq_true, Bool.and_eq_true, decide_eq_true_eq] at holder
  obtain ⟨f, hf, g, hg, e, he, e', he', huser, hlt⟩ := holder
  refine ⟨s, hs, fun hnew => ?_⟩
  have := hnew.levels 1 2 Nat.one_lt_two e ⟨f, hf, he⟩ e' ⟨g, hg, he'⟩ huser
  exact absurd this (Nat.lt_asymm hlt)

end Bourbon
