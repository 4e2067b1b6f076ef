import Bourbon.Db.GarbageSafety

/-!
# File numbers

`NewFileNumber`, `ReuseFileNumber` and `MarkFileNumberUsed` of `VersionSet`: a number for a new
table is larger than those of all tables in use.

* `Ahead` : the counter is above all tables of the versions in memory and all pending outputs;
* `replayNumbers` : the counter while `DBImpl::Recover` replays logs;
* `fileNumbers_fresh` : the result, for every run with crashes.
-/

namespace Bourbon

open List RefCount

variable {K : Type*}

/-- `MakeRoomForWrite`, if the new log cannot be created. -/
def FileState.failSwitch (s : FileState K) : FileState K :=
  let (number, next) := newFileNumber s.next_file_number
  { s with next_file_number := reuseFileNumber next number }

theorem FileState.failSwitch_eq (s : FileState K) : s.failSwitch = s := by
  simp only [FileState.failSwitch, reuseFileNumber, if_true]

/-- What the replay of logs does with the counter: it writes a table, or it is done with a log. -/
inductive ReplayEvent where
  | table
  | logDone (number : ℕ)

/-- The numbers of the tables, and the counter in the end. -/
def replayNumbers : ℕ → List ReplayEvent → List ℕ × ℕ
  | next, [] => ([], next)
  | next, .table :: events =>
    let (number, next) := newFileNumber next
    (number :: (replayNumbers next events).1, (replayNumbers next events).2)
  | next, .logDone number :: events => replayNumbers (markFileNumberUsed next number) events

theorem replayNumbers_spec (next : ℕ) (events : List ReplayEvent) :
    (replayNumbers next events).1.Pairwise (· < ·) ∧
      (∀ n ∈ (replayNumbers next events).1, next ≤ n ∧ n < (replayNumbers next events).2) ∧
      next ≤ (replayNumbers next events).2 := by
  induction events generalizing next with
  | nil => exact ⟨Pairwise.nil, nofun, le_refl next⟩
  | cons event events ih =>
    cases event with
    | table =>
      obtain ⟨hsorted, hbounds, hle⟩ := ih (next + 1)
      refine ⟨pairwise_cons.2 ⟨fun n hn => (hbounds n hn).1, hsorted⟩, fun n hn => ?_,
        Nat.le_of_succ_le hle⟩
      rcases mem_cons.1 hn with rfl | hn
      · exact ⟨le_refl n, hle⟩
      · exact ⟨Nat.le_of_succ_le (hbounds n hn).1, (hbounds n hn).2⟩
    | logDone number =>
      have hmark : next ≤ markFileNumberUsed next number := by
        unfold markFileNumberUsed
        split_ifs <;> omega
      obtain ⟨hsorted, hbounds, hle⟩ := ih (markFileNumberUsed next number)
      exact ⟨hsorted, fun n hn => ⟨hmark.trans (hbounds n hn).1, (hbounds n hn).2⟩, hmark.trans hle⟩

/-- The replay of logs numbers its tables as `DB::Open` assumes; the new log may take a number. -/
theorem Opening.numbered_of_replay {r : Opening K} {next : ℕ} (events : List ReplayEvent)
    (hfiles : r.files.map FileMetaData.number = (replayNumbers next events).1)
    (hnext : (replayNumbers next events).2 ≤ r.next_file_number) : r.Numbered next := by
  obtain ⟨hsorted, hbounds, hle⟩ := replayNumbers_spec next events
  refine ⟨hfiles ▸ hsorted.imp fun h => h.ne, fun f hf => ?_, hle.trans hnext⟩
  have hmem := hfiles ▸ mem_map_of_mem (f := FileMetaData.number) hf
  exact ⟨(hbounds _ hmem).1, (hbounds _ hmem).2.trans_le hnext⟩

/-- The counter is above every number in use. -/
structure Ahead (s : FileState K) : Prop where
  version : ∀ c ∈ s.versions, ∀ level, ∀ f ∈ c.value level, f.number < s.next_file_number
  pending : ∀ n ∈ s.pending_outputs, n < s.next_file_number

namespace Ahead

variable {s s' : FileState K}

theorem of_values (h : Ahead s)
    (hversion : ∀ c ∈ s'.versions, ∃ c' ∈ s.versions, c.value = c'.value)
    (hpending : ∀ n ∈ s'.pending_outputs, n ∈ s.pending_outputs ∨ n < s'.next_file_number)
    (hnext : s.next_file_number ≤ s'.next_file_number) : Ahead s' := by
  refine ⟨fun c hc level f hf => ?_, fun n hn => ?_⟩
  · obtain ⟨c', hc', hvalue⟩ := hversion c hc
    exact (h.version c' hc' level f (hvalue ▸ hf)).trans_le hnext
  · rcases hpending n hn with hold | hlt
    · exact (h.pending n hold).trans_le hnext
    · exact hlt

theorem values_ref {cells : List (Cell (Version K))} {id : ℕ} :
    ∀ c ∈ RefCount.ref cells id, ∃ c' ∈ cells, c.value = c'.value := fun _ hc =>
  (mem_ref hc).imp fun _ h => ⟨h.1, h.2.2⟩

theorem values_unref {cells : List (Cell (Version K))} {id : ℕ} :
    ∀ c ∈ RefCount.unref cells id, ∃ c' ∈ cells, c.value = c'.value := fun _ hc =>
  (mem_unref hc).imp fun _ h => ⟨h.1, h.2.2⟩

theorem logAndApply {cause : Cause} {edit : VersionEdit K} {log' prev' : Option ℕ}
    (hs : s.logAndApply cause edit log' prev' = some s') (h : Ahead s) : Ahead s' := by
  unfold FileState.logAndApply at hs
  split_ifs at hs
  cases hs
  exact ⟨h.version, h.pending⟩

theorem endBuildTable {number : ℕ} {base : Pointer (Version K)} {outcome : TableOutcome K}
    (h : Ahead s) (hs : s.endBuildTable number base outcome = some s') : Ahead s' := by
  have hbuilt : Ahead { s with
      pending_outputs := s.pending_outputs.erase number
      versions := RefCount.unref s.versions base.id } :=
    h.of_values values_unref (fun _ hn => Or.inl (Finset.mem_of_mem_erase hn)) (le_refl _)
  cases outcome with
  | written level file =>
    simp only [FileState.endBuildTable] at hs
    split_ifs at hs
    exact logAndApply hs ⟨hbuilt.version, hbuilt.pending⟩
  | _ =>
    cases hs
    exact ⟨hbuilt.version, hbuilt.pending⟩

theorem releaseCompaction (h : Ahead s) : Ahead s.releaseCompaction := by
  unfold FileState.releaseCompaction
  split
  · exact h
  · exact h.of_values values_unref (fun _ hn => Or.inl (Finset.mem_sdiff.1 hn).1) (le_refl _)

theorem afterWrite (h : Ahead s) (cause : Cause) (ok : Bool) : Ahead (s.afterWrite cause ok) := by
  have hrelease := h.releaseCompaction
  cases cause with
  | flush => cases ok <;> exact ⟨h.version, h.pending⟩
  | opening | closing => exact ⟨h.version, h.pending⟩
  | move | install => exact ⟨hrelease.version, hrelease.pending⟩

variable [LinearOrder K]

theorem startCompaction {level : ℕ} {inputs next_inputs : List (FileMetaData K)} (h : Ahead s)
    (hs : s.startCompaction level inputs next_inputs = some s') : Ahead s' := by
  unfold FileState.startCompaction at hs
  split_ifs at hs
  cases hs
  exact h.of_values values_ref (fun _ => Or.inl) (le_refl _)

theorem endLogAndApply (h : Ahead s) {v : Version K} {log_number next last : ℕ}
    (hr : Running s v log_number next last) {cause : Cause} {record : ManifestRecord K}
    (hphase : s.phase = .writing cause record) (ok reached : Bool) :
    Ahead (s.endLogAndApply record ok reached) := by
  unfold FileState.endLogAndApply
  cases ok with
  | false => exact ⟨h.version, h.pending⟩
  | true =>
    refine ⟨fun c hc level f hf => ?_, h.pending⟩
    rcases mem_append.1 hc with hc | hc
    · obtain ⟨c', hc', hvalue⟩ := values_unref c hc
      exact h.version c' hc' level f (hvalue ▸ hf)
    · rw [mem_singleton.1 hc, nextVersion_eq] at hf
      rcases (mem_applyEdit.1 hf).1 with hf | hf
      · obtain ⟨c', hc', -, hvalue⟩ := hr.counted.held s.current mem_cons_self
        exact h.version c' hc' level f (hvalue ▸ hf)
      · have hfits := hr.phase
        rw [hphase] at hfits
        obtain ⟨log', next', last', -, hnumber, -, hlimit, -⟩ := hfits.shape
        exact (hnumber _ (VersionEdit.mem_addedFiles hf)).trans_le hlimit

end Ahead

variable [LinearOrder K]

/-- The steps of the database, and a log switch that fails. -/
inductive NumberAction (K : Type*) where
  | file (a : FileAction K)
  | failSwitch

/-- One step. -/
def numberStep (s : FileState K) : NumberAction K → Option (FileState K)
  | .file a => fileStep s a
  | .failSwitch => if s.isClosed || s.imm || s.bg_error then none else some s.failSwitch

/-- The numbers that an action gets from `NewFileNumber` for tables. -/
def newTables (s : FileState K) : NumberAction K → List ℕ
  | .file .startFlush | .file (.openOutput _) | .file (.closeTable _ _) => 
    [(newFileNumber s.next_file_number).1]
  | .file (.openDB r) => r.files.map FileMetaData.number
  | _ => []

/-- The versions that are referenced when an action asks for a number, and `pending_outputs_`.
`DB::Open` begins with the recovered version. -/
def inUseAt (s : FileState K) : NumberAction K → List (Version K) × Finset ℕ
  | .file (.openDB _) => ((recoverManifest s.manifest).toOption.toList.map (·.current), ∅)
  | _ => (s.versions.map Cell.value, s.pending_outputs)

section

variable {s s' : FileState K} {v : Version K} {log_number next last : ℕ}

theorem OnDisk.number_lt (h : OnDisk s.manifest v log_number next last) :
    ∀ level, ∀ f ∈ v level, f.number < next := fun level f hf =>
  h.number _ (h.climbs.mem level f hf)

theorem OnDisk.openDB_numbers (h : OnDisk s.manifest v log_number next last) {r : Opening K}
    (hs : s.openDB r = some s') :
    (∀ f ∈ r.files, next < f.number) ∧ next < r.next_file_number := by
  unfold FileState.openDB at hs
  simp only [h.recoverManifest_eq] at hs
  split_ifs at hs with hnumbers <;>
    exact ⟨fun f hf => Nat.lt_of_succ_le (hnumbers.2.1 f hf).1, Nat.lt_of_succ_le hnumbers.2.2⟩

theorem OnDisk.ahead_openDB (h : OnDisk s.manifest v log_number next last) {r : Opening K}
    (hs : s.openDB r = some s') : Ahead s' := by
  have hopened : ∀ rv : RecoveredVersion K, rv.current = v → Ahead (s.opened rv r) := by
    refine fun rv hrv => ⟨fun c hc level f hf => ?_, nofun⟩
    rw [mem_singleton.1 hc, hrv] at hf
    exact (h.number_lt level f hf).trans (h.openDB_numbers hs).2
  unfold FileState.openDB at hs
  simp only [h.recoverManifest_eq] at hs
  split_ifs at hs
  · exact Ahead.logAndApply hs (hopened _ rfl)
  · cases hs
    exact hopened _ rfl

theorem Ahead.step (h : Ahead s) (hc : Collectable s) {a : FileAction K}
    (hs : fileStep s a = some s') : Ahead s' := by
  obtain ⟨v, log_number, next, last, hdisk, hopen⟩ := hc
  have hsame : ∀ c ∈ s.versions, ∃ c' ∈ s.versions, c.value = c'.value := fun c hc => ⟨c, hc, rfl⟩
  have hinsert : ∀ n ∈ insert s.next_file_number s.pending_outputs,
      n ∈ s.pending_outputs ∨ n < s.next_file_number + 1 := fun n hn =>
    (Finset.mem_insert.1 hn).symm.imp_right fun heq => heq.trans_lt (Nat.lt_succ_self _)
  cases fileStep_moves hs with
  | ref => exact h.of_values values_ref (fun _ => Or.inl) (le_refl _)
  | unref _ hs =>
    obtain ⟨p, -, rfl⟩ := Option.map_eq_some_iff.1 hs
    exact h.of_values values_unref (fun _ => Or.inl) (le_refl _)
  | switchMemTable _ hs =>
    unfold FileState.switchMemTable at hs
    split_ifs at hs
    cases hs
    exact h.of_values hsame (fun _ => Or.inl) (Nat.le_succ _)
  | startFlush _ hs =>
    unfold FileState.startFlush at hs
    split_ifs at hs
    cases hs
    exact h.of_values values_ref hinsert (Nat.le_succ _)
  | endBuildTable _ hs => exact h.endBuildTable hs
  | startCompaction _ hs => exact h.startCompaction hs
  | trivialMove _ hs =>
    obtain ⟨t, ht, hs⟩ := Option.bind_eq_some_iff.1 hs
    exact logAndApply hs (h.startCompaction ht)
  | openOutput _ hs =>
    obtain ⟨c, -, rfl⟩ := Option.map_eq_some_iff.1 hs
    exact h.of_values hsame hinsert (Nat.le_succ _)
  | installCompaction _ hs =>
    unfold FileState.installCompaction at hs
    split at hs
    · cases hs
    · split_ifs at hs
      exact logAndApply hs h
  | abortCompaction _ hs =>
    unfold FileState.abortCompaction at hs
    split_ifs at hs
    cases hs
    exact ⟨h.releaseCompaction.version, h.releaseCompaction.pending⟩
  | endWrite hphase =>
    have hr := hopen (by rw [FileState.isClosed, hphase])
    exact (h.endLogAndApply hr hphase _ _).afterWrite _ _
  | deleteObsoleteFiles =>
    unfold FileState.deleteObsoleteFiles
    split_ifs <;> exact ⟨h.version, h.pending⟩
  | closeTable _ hs =>
    unfold FileState.closeTable at hs
    split_ifs at hs
    exact logAndApply hs (h.of_values hsame (fun _ => Or.inl) (Nat.le_succ _))
  | openDB hs => exact hdisk.ahead_openDB hs
  | write | close | crash | failOpen => exact ⟨h.version, h.pending⟩

end

/-- **A number for a new table is new**: it is larger than those of all tables of the referenced
versions and of all pending outputs, and after recovery the counter is above the recovered
version. -/
theorem fileNumbers_fresh {actions : List (NumberAction K)} {s : FileState K}
    (hrun : Steps.run numberStep FileState.newDB actions = some s) :
    (∀ a s', numberStep s a = some s' → ∀ n ∈ newTables s a,
      (∀ v ∈ (inUseAt s a).1, ∀ level, ∀ f ∈ v level, f.number < n) ∧
        ∀ m ∈ (inUseAt s a).2, m < n) ∧
    ∃ rv, recoverManifest s.manifest = .ok rv ∧
      (∀ level, ∀ f ∈ rv.current level, f.number < rv.next_file_number) ∧
      ∀ events, (replayNumbers rv.next_file_number events).1.Pairwise (· < ·) ∧
        ∀ n ∈ (replayNumbers rv.next_file_number events).1, rv.next_file_number ≤ n := by
  have hstep : ∀ t a t', Collectable t ∧ Ahead t → True → numberStep t a = some t' →
      Collectable (K := K) t' ∧ Ahead t' := by
    intro t a t' h _ hstep
    cases a with
    | file a => exact ⟨h.1.step a hstep, h.2.step h.1 hstep⟩
    | failSwitch =>
      simp only [numberStep, FileState.failSwitch_eq] at hstep
      split_ifs at hstep
      cases hstep
      exact h
  obtain ⟨⟨v, log_number, next, last, hdisk, -⟩, hahead⟩ :=
    Steps.invariant hstep ⟨collectable_newDB, nofun, nofun⟩ (Steps.meets_true _ _) hrun
  refine ⟨fun a s' hs n hn => ?_, _, hdisk.recoverManifest_eq, fun level f hf =>
    Nat.lt_succ_of_lt (hdisk.number_lt level f hf), fun events => ?_⟩
  swap
  · obtain ⟨hsorted, hbounds, -⟩ := replayNumbers_spec (next + 1) events
    exact ⟨hsorted, fun n hn => (hbounds n hn).1⟩
  have hnext : (∀ v ∈ s.versions.map Cell.value, ∀ level, ∀ f ∈ v level,
      f.number < s.next_file_number) ∧ ∀ m ∈ s.pending_outputs, m < s.next_file_number :=
    ⟨forall_mem_map.2 hahead.version, hahead.pending⟩
  cases a with
  | failSwitch => cases hn
  | file a =>
    cases a with
    | startFlush | openOutput | closeTable =>
      rw [mem_singleton.1 hn]
      exact hnext
    | openDB r =>
      have hs : fileStep s (.openDB r) = some s' := hs
      cases fileStep_moves hs with
      | openDB hs =>
        obtain ⟨f, hf, rfl⟩ := mem_map.1 hn
        refine ⟨fun v' hv level g hg => ?_, nofun⟩
        simp only [inUseAt, hdisk.recoverManifest_eq, Except.toOption, Option.toList_some,
          map_singleton, mem_singleton] at hv
        exact (hdisk.number_lt level g (hv ▸ hg)).trans ((hdisk.openDB_numbers hs).1 f hf)
    | _ => cases hn

/-- A log switch fails after the compaction, and the next one succeeds. -/
def numberRun : List (NumberAction ℕ) :=
  collectionRun.map .file ++ [.file .deleteObsoleteFiles, .failSwitch, .file .switchMemTable]

theorem fileNumbers_fresh_flush : ∃ s s',
    Steps.run numberStep FileState.newDB numberRun = some s ∧
      numberStep s (.file .startFlush) = some s' ∧ newTables s (.file .startFlush) = [8] ∧
      ∀ v ∈ s.versions.map Cell.value, ∀ level, ∀ f ∈ v level, f.number < 8 := by
  have heval : ((Steps.run numberStep FileState.newDB numberRun).bind fun s =>
      (numberStep s (.file .startFlush)).map fun _ =>
        decide (newTables s (.file .startFlush) = [8])) = some true := by decide +kernel
  obtain ⟨s, hrun, hmap⟩ := Option.bind_eq_some_iff.1 heval
  obtain ⟨s', hs, hnew⟩ := Option.map_eq_some_iff.1 hmap
  have hnew := of_decide_eq_true hnew
  exact ⟨s, s', hrun, hs, hnew, ((fileNumbers_fresh hrun).1 _ s' hs 8 (by rw [hnew]; simp)).1⟩

end Bourbon
