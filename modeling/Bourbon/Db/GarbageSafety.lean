import Bourbon.Db.Garbage

/-!
# Garbage collection is safe

As long as there has been no background error, recovery would make the current version of what is on
the disk; after one there are no more collections.

* `OnDisk` : a manifest from which recovery makes a version, with the levels through which the files
  have moved;
* `Running` : the invariant of a running database;
* `deleteObsoleteFiles_keeps` : no collection removes a file that somebody needs.
-/

namespace Bourbon

open List

open RefCount

variable {K : Type*} [LinearOrder K]

/-! ### What is on the disk -/

/-- The files that the records of a manifest add. -/
def added (records : List (ManifestRecord K)) : List (ℕ × FileMetaData K) :=
  (records.map ManifestRecord.edit).flatMap VersionEdit.new_files

omit [LinearOrder K] in
theorem added_append (records : List (ManifestRecord K)) (record : ManifestRecord K) :
    added (records ++ [record]) = added records ++ record.edit.new_files := by
  rw [added, map_append, flatMap_append, map_singleton, flatMap_singleton]
  rfl

/-- The files of a version have been added, and a file only moves to deeper levels. -/
structure Climbs (adds : List (ℕ × FileMetaData K)) (v : Version K) : Prop where
  mem : ∀ level, ∀ f ∈ v level, (level, f) ∈ adds
  le : ∀ p ∈ adds, ∀ level, ∀ f ∈ v level, f.number = p.2.number → p.1 ≤ level

/-- An edit that adds files with new numbers, or that moves a file to the next level. -/
inductive Extends (adds : List (ℕ × FileMetaData K)) (v : Version K) : VersionEdit K → Prop where
  | fresh {edit : VersionEdit K} (once : (edit.new_files.map fun p => p.2.number).Nodup)
      (new : ∀ p ∈ edit.new_files, ∀ q ∈ adds, q.2.number ≠ p.2.number)
      (level : ∀ p ∈ edit.new_files, p.1 < kNumLevels) : Extends adds v edit
  | move {level : ℕ} {f : FileMetaData K} (hf : f ∈ v level) (hlevel : level + 1 < kNumLevels) :
      Extends adds v ⟨[(level, f.number)], [(level + 1, f)]⟩

section

variable {adds adds' : List (ℕ × FileMetaData K)} {v : Version K} {edit : VersionEdit K}

omit [LinearOrder K] in
theorem Extends.mono (h : Extends adds v edit) (hsub : ∀ p ∈ adds', p ∈ adds) :
    Extends adds' v edit := by
  cases h with
  | fresh once new level => exact .fresh once (fun p hp q hq => new p hp q (hsub q hq)) level
  | move hf hlevel => exact .move hf hlevel

omit [LinearOrder K] in
theorem Extends.level_lt (h : Extends adds v edit) : ∀ p ∈ edit.new_files, p.1 < kNumLevels := by
  cases h with
  | fresh once new level => exact level
  | move hf hlevel =>
    intro p hp
    rw [mem_singleton.1 hp]
    exact hlevel

namespace Climbs

omit [LinearOrder K] in
theorem level_eq (h : Climbs adds v) {level level' : ℕ} {f g : FileMetaData K} (hf : f ∈ v level)
    (hg : g ∈ v level') (heq : f.number = g.number) : level = level' :=
  le_antisymm (h.le _ (h.mem level f hf) level' g hg heq.symm)
    (h.le _ (h.mem level' g hg) level f hf heq)

omit [LinearOrder K] in
theorem pair_ne (h : Climbs adds v) (he : Extends adds v edit) :
    ∀ p ∈ edit.new_files, ∀ q ∈ adds, (q.1, q.2.number) ≠ (p.1, p.2.number) := by
  intro p hp q hq heq
  obtain ⟨hlevel, hnumber⟩ := Prod.mk.inj heq
  cases he with
  | fresh once new level => exact new p hp q hq hnumber
  | move hf hlt =>
    rw [mem_singleton.1 hp] at hlevel hnumber
    have := h.le q hq _ _ hf hnumber.symm
    simp only at hlevel
    omega

omit [LinearOrder K] in
theorem once (he : Extends adds v edit) :
    (edit.new_files.map fun p => (p.1, p.2.number)).Nodup := by
  cases he with
  | fresh once new level =>
    have hmap : (edit.new_files.map fun p => (p.1, p.2.number)).map Prod.snd =
        edit.new_files.map fun p => p.2.number := map_map
    exact List.Nodup.of_map Prod.snd (by rw [hmap]; exact once)
  | move hf hlevel => exact nodup_singleton _

/-- **An edit keeps the order of levels.** -/
theorem extend (h : Climbs adds v) (he : Extends adds v edit) :
    Climbs (adds ++ edit.new_files) (applyEdit v edit) := by
  have hmem : ∀ level, ∀ f ∈ applyEdit v edit level,
      f ∈ v level ∧ edit.isDeleted level f.number = false ∨ (level, f) ∈ edit.new_files := by
    intro level f hf
    obtain ⟨hf | hf, hdeleted⟩ := mem_applyEdit.1 hf
    · exact Or.inl ⟨hf, hdeleted⟩
    · exact Or.inr (VersionEdit.mem_addedFiles hf)
  refine ⟨fun level f hf => ?_, fun p hp level f hf heq => ?_⟩
  · rcases hmem level f hf with ⟨hf, -⟩ | hf
    · exact mem_append_left _ (h.mem level f hf)
    · exact mem_append_right _ hf
  · rcases mem_append.1 hp with hold | hnew
    · rcases hmem level f hf with ⟨hfold, -⟩ | hfnew
      · exact h.le p hold level f hfold heq
      · cases he with
        | fresh once new _ => exact absurd heq.symm (new _ hfnew p hold)
        | move hg hlevel =>
          obtain ⟨rfl, rfl⟩ := Prod.mk.inj (mem_singleton.1 hfnew)
          exact Nat.le_succ_of_le (h.le p hold _ _ hg heq)
    · rcases hmem level f hf with ⟨hfold, hdeleted⟩ | hfnew
      · cases he with
        | fresh once new _ => exact absurd heq (new p hnew _ (h.mem level f hfold))
        | @move level' g hg hlevel =>
          -- the old place of the file has been deleted
          rw [mem_singleton.1 hnew] at heq
          obtain rfl := h.level_eq hfold hg heq
          have hdel : VersionEdit.isDeleted
              (⟨[(level, g.number)], [(level + 1, g)]⟩ : VersionEdit K) level f.number = true := by
            rw [heq]
            refine Builder.isDeleted_iff.2 ⟨mem_singleton_self _, fun g' hg' => ?_⟩
            have := (Prod.mk.inj (mem_singleton.1 hg')).1
            omega
          exact absurd (hdel.symm.trans hdeleted) (by decide)
      · cases he with
        | fresh once new _ =>
          have hsame : (level, f) = p := inj_on_of_nodup_map once hfnew hnew heq
          rw [← hsame]
        | move hg hlevel =>
          rw [mem_singleton.1 hnew, (Prod.mk.inj (mem_singleton.1 hfnew)).1]

end Climbs

end

/-- A manifest, the version and the numbers that recovery finds, and where the files have been. -/
structure OnDisk (records : List (ManifestRecord K)) (v : Version K) (log_number next last : ℕ) :
    Prop extends ManifestOf records v log_number next last where
  climbs : Climbs (added records) v
  level : ∀ p ∈ added records, p.1 < kNumLevels

namespace OnDisk

variable {records : List (ManifestRecord K)} {v : Version K} {edit : VersionEdit K}
  {log_number next last log' next' last' : ℕ} {compact_pointers : List (ℕ × InternalKey K)}

variable (h : OnDisk records v log_number next last)
include h

theorem isVersion : IsVersion v := by
  have hfold := isVersion_empty.foldl h.loggable h.level
  rwa [← recoverVersion_eq_foldl h.loggable, h.version] at hfold

/-- **A record at the end of the manifest.** -/
theorem append (he : Extends (added records) v edit)
    (hnumber : ∀ p ∈ edit.new_files, p.2.number < next') (hnext : next ≤ next')
    (hlt : log' < next') :
    OnDisk (records ++ [⟨edit, some log', some 0, some next', some last', compact_pointers⟩])
      (applyEdit v edit) log' next' last' := by
  have hlog : Loggable (fun _ => []) (records.map ManifestRecord.edit ++ [edit]) :=
    h.loggable.append (Climbs.once he) (h.climbs.pair_ne he) fun p hp f hf => by cases hf
  refine { h.toManifestOf.append hlog hnumber hnext hlt with climbs := ?_, level := ?_ }
  · rw [added_append]
    exact h.climbs.extend he
  · intro p hp
    rw [added_append] at hp
    rcases mem_append.1 hp with hp | hp
    · exact h.level p hp
    · exact he.level_lt p hp

theorem climbs_snapshot :
    Climbs (writeSnapshot v).new_files v := by
  refine ⟨fun level f hf => mem_writeSnapshot.2 ⟨?_, hf⟩, fun p hp level f hf heq => ?_⟩
  · exact h.level _ (h.climbs.mem level f hf)
  · exact (h.climbs.level_eq (mem_writeSnapshot.1 hp).2 hf heq.symm).le

/-- **A new manifest** in place of the old one. -/
theorem snapshot (he : Extends (added records) v edit)
    (hnumber : ∀ p ∈ edit.new_files, p.2.number < next') (hnext : next ≤ next')
    (hlt : log' < next') {compact_pointer : ℕ → Option (InternalKey K)} :
    OnDisk [snapshotRecord v compact_pointer,
      ⟨edit, some log', some 0, some next', some last', compact_pointers⟩]
      (applyEdit v edit) log' next' last' := by
  have hsub : ∀ p ∈ (writeSnapshot v).new_files, p ∈ added records := fun p hp =>
    h.climbs.mem p.1 p.2 (mem_writeSnapshot.1 hp).2
  have he' : Extends (writeSnapshot v).new_files v edit := he.mono hsub
  have hadded : added [snapshotRecord v compact_pointer,
      ⟨edit, some log', some 0, some next', some last', compact_pointers⟩] =
        (writeSnapshot v).new_files ++ edit.new_files := by
    simp [added, snapshotRecord]
  have hlog : Loggable v [edit] := by
    refine ⟨?_, fun p hp f hf heq => ?_⟩
    · rw [flatMap_singleton]
      exact Climbs.once he
    · rw [flatMap_singleton] at hp
      exact h.climbs.pair_ne he p hp _ (h.climbs.mem p.1 f hf) (by rw [heq])
  refine { h.isVersion.manifestOf hlog (fun level f hf => ?_) hnumber hlt with
    climbs := ?_, level := ?_ }
  · exact (h.number _ (h.climbs.mem level f hf)).trans_le hnext
  · rw [hadded]
    exact h.climbs_snapshot.extend he'
  · intro p hp
    rw [hadded] at hp
    rcases mem_append.1 hp with hp | hp
    · exact h.level p (hsub p hp)
    · exact he.level_lt p hp

omit h

end OnDisk

/-! ### The invariant -/

/-- The version that `WriteLevel0Table` uses. -/
def Phase.bases : Phase K → List (Pointer (Version K))
  | .building _ base => [base]
  | _ => []

/-- The database is not being closed. -/
def Phase.inUse : Phase K → Bool
  | .closing => false
  | .writing .closing _ => false
  | _ => true

namespace FileState

/-- Everything that refers to a version. -/
def pointers (s : FileState K) : List (Pointer (Version K)) :=
  s.current :: (s.pins ++ s.phase.bases ++
    (s.compaction.map CompactionJob.input_version).toList)

omit [LinearOrder K] in
theorem pointers_of_bases {s : FileState K} (h : s.phase.bases = []) :
    s.pointers = s.current :: (s.pins ++
      (s.compaction.map CompactionJob.input_version).toList) := by
  rw [pointers, h, append_nil]

/-- The outputs of the compaction that is running. -/
def outputs (s : FileState K) : List ℕ := (s.compaction.map CompactionJob.outputs).getD []

/-- No write to the manifest can have failed: there is no background error and the database is not
being closed, or no manifest has been opened for writing. -/
def Trusted (s : FileState K) : Prop :=
  s.descriptor_log = false ∨ s.bg_error = false ∧ s.phase.inUse = true

end FileState

/-- The record that is being written fits to the manifest. -/
structure Fits (adds : List (ℕ × FileMetaData K)) (v : Version K) (next limit : ℕ)
    (outputs : List ℕ) (cause : Cause) (record : ManifestRecord K) : Prop where
  edit : Extends adds v record.edit
  shape : ∃ log' next' last',
    record = ⟨record.edit, some log', some 0, some next', some last', []⟩ ∧
    (∀ p ∈ record.edit.new_files, p.2.number < next') ∧ next ≤ next' ∧ next' ≤ limit ∧ log' < next'
  apart : cause = .move ∨ cause = .install ∨ ∀ p ∈ record.edit.new_files, p.2.number ∉ outputs

/-- What the background thread has in hand. -/
def PhaseFits (adds : List (ℕ × FileMetaData K)) (v : Version K) (next limit : ℕ)
    (outputs : List ℕ) : Phase K → Prop
  | .building number _ => number < limit ∧ (∀ q ∈ adds, q.2.number ≠ number) ∧ number ∉ outputs
  | .writing cause record => Fits adds v next limit outputs cause record
  | _ => True

variable {adds : List (ℕ × FileMetaData K)} {v : Version K} {next limit : ℕ} {outputs : List ℕ}
variable {phase : Phase K}

omit [LinearOrder K] in
theorem PhaseFits.mono {limit' : ℕ} (h : PhaseFits adds v next limit outputs phase)
    (hle : limit ≤ limit') : PhaseFits adds v next limit' outputs phase := by
  cases phase with
  | building number base => exact ⟨h.1.trans_le hle, h.2⟩
  | writing cause record =>
    obtain ⟨log', next', last', hrecord, hnumber, hnext, hlimit, hlog⟩ := h.shape
    exact ⟨h.edit, ⟨log', next', last', hrecord, hnumber, hnext, hlimit.trans hle, hlog⟩, h.apart⟩
  | _ => trivial

/-- The invariant of an open database.  The disk holds a manifest of version `v`; while the database
can be trusted this is the current version. -/
structure Running (s : FileState K) (v : Version K) (log_number next last : ℕ) : Prop where
  disk : OnDisk s.manifest v log_number next last
  next_le : next ≤ s.next_file_number
  log_lt : s.log_number < s.next_file_number
  prev : s.prev_log_number = 0
  counted : Counted s.versions s.pointers
  id_lt : ∀ c ∈ s.versions, c.id < s.version_count
  trusted : s.Trusted → s.current.value = v ∧ s.log_number = log_number ∧ s.damaged = false
  once : s.outputs.Nodup
  output : ∀ n ∈ s.outputs, n < s.next_file_number ∧ n ∈ s.pending_outputs ∧
    ∀ q ∈ added s.manifest, q.2.number ≠ n
  job : ∀ c ∈ s.compaction, c.level + 1 < kNumLevels
  phase : PhaseFits (added s.manifest) v next s.next_file_number s.outputs s.phase

namespace Running

variable {s s' : FileState K} {v : Version K} {log_number next last : ℕ}

variable {n : ℕ}

variable (h : Running s v log_number next last)
include h

theorem number_ne (hn : s.next_file_number ≤ n) :
    ∀ q ∈ added s.manifest, q.2.number ≠ n := by
  intro q hq
  have := h.disk.number q hq
  have := h.next_le
  omega

theorem not_mem_outputs
    (hn : s.next_file_number ≤ n) : n ∉ s.outputs := fun hmem =>
  absurd (h.output n hmem).1 hn.not_gt

/-! ### Readers and writers -/

theorem ref : Running s.ref v log_number next last := by
  have hcounted := h.counted.ref (p := s.current) mem_cons_self
  exact { h with counted := hcounted, id_lt := id_lt_ref h.id_lt _ }

theorem unref {i : ℕ} (hs : s.unref i = some s') :
    Running s' v log_number next last := by
  obtain ⟨p, hp, rfl⟩ := Option.map_eq_some_iff.1 hs
  have hperm : s.pins.Perm (p :: s.pins.eraseIdx i) := by
    obtain ⟨hi, rfl⟩ := List.getElem?_eq_some_iff.1 hp
    exact (getElem_cons_eraseIdx_perm hi).symm
  have hall : s.pointers.Perm (p :: (s.current :: (s.pins.eraseIdx i ++ s.phase.bases ++
      (s.compaction.map CompactionJob.input_version).toList))) := by
    refine List.Perm.trans (List.Perm.cons _ ?_) (List.Perm.swap _ _ _)
    exact (hperm.append_right _).append_right _
  exact { h with counted := (h.counted.perm hall).unref, id_lt := id_lt_unref h.id_lt _ }

theorem newFileNumber (tables logs : Finset ℕ) :
    Running { s with
      next_file_number := s.next_file_number + 1
      tables := tables
      logs := logs } v log_number next last :=
  { h with
    next_le := Nat.le_succ_of_le h.next_le
    log_lt := Nat.lt_succ_of_lt h.log_lt
    output := fun n hn => ⟨Nat.lt_succ_of_lt (h.output n hn).1, (h.output n hn).2⟩
    phase := h.phase.mono (Nat.le_succ _) }

theorem switchMemTable (hs : s.switchMemTable = some s') :
    Running s' v log_number next last := by
  unfold FileState.switchMemTable at hs
  split_ifs at hs
  obtain rfl := Option.some.inj hs
  exact { h.newFileNumber s.tables (insert s.next_file_number s.logs) with }

/-! ### The background thread -/

theorem startFlush (hphase : s.phase = .background)
    (hs : s.startFlush = some s') : Running s' v log_number next last := by
  unfold FileState.startFlush at hs
  split_ifs at hs
  obtain rfl := Option.some.inj hs
  have hcounted : Counted (RefCount.ref s.versions s.current.id)
      (s.current :: (s.pins ++ [s.current] ++
        (s.compaction.map CompactionJob.input_version).toList)) := by
    have hnew := h.counted.ref (p := s.current) mem_cons_self
    rw [FileState.pointers_of_bases (by rw [hphase]; rfl)] at hnew
    refine hnew.perm (List.Perm.cons _ ?_)
    rw [append_assoc]
    exact perm_middle.symm
  refine
    { disk := h.disk
      next_le := Nat.le_succ_of_le h.next_le
      log_lt := Nat.lt_succ_of_lt h.log_lt
      prev := h.prev
      counted := hcounted
      id_lt := id_lt_ref h.id_lt _
      trusted := fun ht => h.trusted ?_
      once := h.once
      output := fun n hn => ⟨Nat.lt_succ_of_lt (h.output n hn).1,
        Finset.mem_insert_of_mem (h.output n hn).2.1, (h.output n hn).2.2⟩
      job := h.job
      phase := ⟨Nat.lt_succ_self _, h.number_ne (le_refl _), h.not_mem_outputs (le_refl _)⟩ }
  rw [FileState.Trusted, hphase]
  exact ht

omit h

variable {t : FileState K} {cause : Cause} {log' prev' : Option ℕ}

/-- **`LogAndApply` has made its record.** -/
theorem logAndApply {edit : VersionEdit K} (hs : t.logAndApply cause edit log' prev' = some s')
    (phase : Phase K) (h : Running { t with phase := phase } v log_number next last)
    (hbases : phase.bases = []) (huse : cause ≠ .closing → phase.inUse = true)
    (he : Extends (added t.manifest) v edit)
    (hnumber : ∀ p ∈ edit.new_files, p.2.number < t.next_file_number)
    (hprev : prev'.getD 0 = 0)
    (hapart : cause = .move ∨ cause = .install ∨ ∀ p ∈ edit.new_files, p.2.number ∉ t.outputs) :
    Running s' v log_number next last := by
  unfold FileState.logAndApply at hs
  split_ifs at hs with hassert
  obtain rfl := Option.some.inj hs
  have hlog : log'.getD t.log_number < t.next_file_number := by
    cases log' with
    | none => exact h.log_lt
    | some n =>
      rw [Option.all_some, Bool.and_eq_true, decide_eq_true_eq, decide_eq_true_eq] at hassert
      exact hassert.2
  have hzero : prev'.getD t.prev_log_number = 0 := by
    have hprev_log : t.prev_log_number = 0 := h.prev
    rw [hprev_log]
    exact hprev
  refine
    { h with
      counted := ?_
      trusted := fun ht => h.trusted ?_
      phase := ⟨he, ⟨_, _, t.last_sequence, ?_, hnumber, h.next_le, le_refl _, hlog⟩, hapart⟩ }
  · have hcounted := h.counted
    rw [FileState.pointers, hbases] at hcounted
    exact hcounted
  · refine ht.imp_right fun ⟨herror, hinUse⟩ => ⟨herror, huse ?_⟩
    rintro rfl
    cases hinUse
  · simp only [hzero]

variable {level : ℕ} {file : FileMetaData K}

theorem logAndApply_file (hs : t.logAndApply cause ⟨[], [(level, file)]⟩ log' prev' = some s')
    (phase : Phase K) (h : Running { t with phase := phase } v log_number next last)
    (hbases : phase.bases = []) (huse : cause ≠ .closing → phase.inUse = true)
    (hlevel : level ≤ kMaxMemCompactLevel) (hnew : ∀ q ∈ added t.manifest, q.2.number ≠ file.number)
    (hnumber : file.number < t.next_file_number) (hprev : prev'.getD 0 = 0)
    (hapart : file.number ∉ t.outputs) : Running s' v log_number next last := by
  refine logAndApply hs phase h hbases huse (.fresh (nodup_singleton _) (fun p hp => ?_)
    fun p hp => ?_) (fun p hp => ?_) hprev (Or.inr (Or.inr fun p hp => ?_)) <;>
    rw [mem_singleton.1 hp]
  · exact hnew
  · exact hlevel.trans_lt (by decide)
  · exact hnumber
  · exact hapart

variable {number : ℕ} {base : Pointer (Version K)}

variable (h : Running s v log_number next last)
include h

theorem built
    (hphase : s.phase = .building number base) (tables : Finset ℕ) {error : Bool}
    (herror : error = false → s.bg_error = false) :
    Running { s with
      tables := tables
      pending_outputs := s.pending_outputs.erase number
      versions := RefCount.unref s.versions base.id
      bg_error := error
      phase := .background } v log_number next last := by
  have hbuilding := h.phase
  rw [hphase] at hbuilding
  have hcounted : Counted (RefCount.unref s.versions base.id) (s.current :: (s.pins ++ [] ++
      (s.compaction.map CompactionJob.input_version).toList)) := by
    have hold := h.counted
    rw [FileState.pointers, hphase] at hold
    refine (hold.perm ?_).unref
    refine List.Perm.trans (List.Perm.cons _ ?_) (List.Perm.swap _ _ _)
    rw [append_nil, Phase.bases, append_assoc]
    exact perm_middle
  refine
    { h with
      counted := hcounted
      id_lt := id_lt_unref h.id_lt _
      trusted := fun ht => h.trusted (ht.imp_right fun ⟨hfalse, _⟩ => ⟨herror hfalse, ?_⟩)
      output := fun n hn => ⟨(h.output n hn).1, Finset.mem_erase.2 ⟨?_, (h.output n hn).2.1⟩,
        (h.output n hn).2.2⟩
      phase := trivial }
  · rintro rfl
    exact hbuilding.2.2 hn
  · rw [hphase]
    rfl

theorem endBuildTable (hphase : s.phase = .building number base)
    {outcome : TableOutcome K} (hs : s.endBuildTable number base outcome = some s') :
    Running s' v log_number next last := by
  cases outcome with
  | failed =>
    obtain rfl := Option.some.inj hs
    exact h.built hphase s.tables nofun
  | abandoned =>
    obtain rfl := Option.some.inj hs
    exact h.built hphase _ nofun
  | written level file =>
    simp only [FileState.endBuildTable] at hs
    split_ifs at hs with hfile
    obtain ⟨hlevel, rfl⟩ := hfile
    have hbuilding := h.phase
    rw [hphase] at hbuilding
    exact logAndApply_file hs .background (h.built hphase _ id) rfl (fun _ => rfl) hlevel
      hbuilding.2.1 hbuilding.1 rfl hbuilding.2.2

theorem startCompaction (hphase : s.phase = .background)
    {inputs next_inputs : List (FileMetaData K)}
    (hs : s.startCompaction level inputs next_inputs = some s') :
    Running s' v log_number next last := by
  unfold FileState.startCompaction at hs
  split_ifs at hs with hcan
  obtain rfl := Option.some.inj hs
  obtain ⟨-, hnone, -, hlevel, -⟩ := hcan
  have hcounted : Counted (RefCount.ref s.versions s.current.id)
      (s.current :: (s.pins ++ s.phase.bases ++ [s.current])) := by
    have hnew := h.counted.ref (p := s.current) mem_cons_self
    rw [FileState.pointers, Option.isNone_iff_eq_none.1 hnone] at hnew
    refine hnew.perm (List.Perm.cons _ ?_)
    rw [Option.map_none, Option.toList_none, append_nil]
    exact (perm_append_singleton _ _).symm
  refine
    { h with
      counted := hcounted
      id_lt := id_lt_ref h.id_lt _
      once := nodup_nil
      output := fun n hn => absurd hn not_mem_nil
      job := fun c hc => ?_
      phase := ?_ }
  · rw [← Option.some.inj hc]
    exact hlevel
  · rw [hphase]
    trivial

theorem trivialMove (hphase : s.phase = .background) (hs : s.trivialMove level file = some s') :
    Running s' v log_number next last := by
  obtain ⟨t, ht, hs⟩ := Option.bind_eq_some_iff.1 hs
  have hrun := h.startCompaction hphase ht
  unfold FileState.startCompaction at ht
  split_ifs at ht with hcan
  obtain rfl := Option.some.inj ht
  obtain ⟨-, -, herror, hlevel, hinputs, -⟩ := hcan
  have hfile : file ∈ v level := by
    rw [← (h.trusted (Or.inr ⟨herror, by rw [hphase]; rfl⟩)).1]
    exact hinputs file (mem_singleton_self _)
  refine logAndApply hs s.phase hrun (by rw [hphase]; rfl) (fun _ => by rw [hphase]; rfl)
    (.move hfile hlevel) (fun p hp => ?_) rfl (Or.inl rfl)
  rw [mem_singleton.1 hp]
  exact (h.disk.number _ (h.disk.climbs.mem level file hfile)).trans_le h.next_le

theorem openOutput (hphase : s.phase = .background)
    {created : Bool} (hs : s.openOutput created = some s') :
    Running s' v log_number next last := by
  obtain ⟨c, hc, rfl⟩ := Option.map_eq_some_iff.1 hs
  have houtputs : s.outputs = c.outputs := by rw [FileState.outputs, hc]; rfl
  have hcounted : Counted s.versions (s.current :: (s.pins ++ s.phase.bases ++
      [c.input_version])) := by
    have hold := h.counted
    rw [FileState.pointers, hc] at hold
    exact hold
  have hnew : s.next_file_number ∉ c.outputs := by
    rw [← houtputs]
    exact h.not_mem_outputs (le_refl _)
  refine
    { h with
      next_le := Nat.le_succ_of_le h.next_le
      log_lt := Nat.lt_succ_of_lt h.log_lt
      counted := hcounted
      once := ?_
      output := fun n hn => ?_
      job := fun c' hc' => ?_
      phase := ?_ }
  · refine nodup_append.2 ⟨?_, nodup_singleton _, fun a ha b hb => ?_⟩
    · rw [← houtputs]
      exact h.once
    · rw [mem_singleton.1 hb]
      rintro rfl
      exact hnew ha
  · rcases mem_append.1 hn with hn | hn
    · rw [← houtputs] at hn
      obtain ⟨hlt, hpending, hadded⟩ := h.output n hn
      exact ⟨Nat.lt_succ_of_lt hlt, Finset.mem_insert_of_mem hpending, hadded⟩
    · rw [mem_singleton.1 hn]
      exact ⟨Nat.lt_succ_self _, Finset.mem_insert_self _ _, h.number_ne (le_refl _)⟩
  · rw [← Option.some.inj hc']
    exact h.job c hc
  · rw [hphase]
    trivial

theorem installCompaction (hphase : s.phase = .background)
    {files : List (FileMetaData K)} (hs : s.installCompaction files = some s') :
    Running s' v log_number next last := by
  unfold FileState.installCompaction at hs
  cases hc : s.compaction with
  | none => rw [hc] at hs; cases hs
  | some c =>
    simp only [hc] at hs
    split_ifs at hs with hfiles
    have houtputs : s.outputs = files.map FileMetaData.number := by
      rw [FileState.outputs, hc, hfiles]
      rfl
    have houtput : ∀ f ∈ files, f.number ∈ s.outputs := fun f hf => by
      rw [houtputs]
      exact mem_map_of_mem hf
    refine logAndApply hs s.phase h (by rw [hphase]; rfl) (fun _ => by rw [hphase]; rfl)
      (.fresh ?_ (fun p hp q hq => ?_) fun p hp => ?_) (fun p hp => ?_) rfl (Or.inr (Or.inl rfl))
    · have honce := h.once
      rw [houtputs] at honce
      rw [map_map]
      exact honce
    · obtain ⟨f, hf, rfl⟩ := mem_map.1 hp
      exact (h.output _ (houtput f hf)).2.2 q hq
    · obtain ⟨f, hf, rfl⟩ := mem_map.1 hp
      exact h.job c hc
    · obtain ⟨f, hf, rfl⟩ := mem_map.1 hp
      exact (h.output _ (houtput f hf)).1

/-! ### The end of a manifest write -/

/-- **The record is on the disk.** -/
theorem written {record : ManifestRecord K}
    (hphase : s.phase = .writing cause record) :
    ∃ log' next' last',
      OnDisk (s.writtenManifest record) (applyEdit v record.edit) log' next' last' ∧
      record.log_number = some log' ∧ log' < next' ∧ record.prev_log_number = some 0 ∧
      next' ≤ s.next_file_number := by
  have hfits := h.phase
  rw [hphase] at hfits
  obtain ⟨log', next', last', hrecord, hnumber, hnext, hlimit, hlog⟩ := hfits.shape
  refine ⟨log', next', last', ?_, by rw [hrecord], hlog, by rw [hrecord], hlimit⟩
  unfold FileState.writtenManifest
  by_cases hdescriptor : s.descriptor_log = true
  · rw [if_pos hdescriptor, hrecord]
    exact h.disk.append hfits.edit hnumber hnext hlog
  · rw [if_neg hdescriptor, hrecord,
      (h.trusted (Or.inl (Bool.eq_false_iff.2 hdescriptor))).1]
    exact h.disk.snapshot hfits.edit hnumber hnext hlog

theorem added_written (record : ManifestRecord K) :
    ∀ q ∈ added (s.writtenManifest record),
      q ∈ added s.manifest ∨ q ∈ record.edit.new_files := by
  intro q hq
  unfold FileState.writtenManifest at hq
  rw [added_append] at hq
  refine (mem_append.1 hq).imp_left fun hq => ?_
  by_cases hdescriptor : s.descriptor_log = true
  · rwa [if_pos hdescriptor] at hq
  · rw [if_neg hdescriptor, (h.trusted (Or.inl (Bool.eq_false_iff.2 hdescriptor))).1] at hq
    have hq' : q ∈ (writeSnapshot v).new_files := by
      simpa [added, snapshotRecord] using hq
    exact h.disk.climbs.mem q.1 q.2 (mem_writeSnapshot.1 hq').2

omit h

end Running

/-- Nothing is in progress except perhaps a compaction; if `sure` the manifest is up to date. -/
structure AtRest (s : FileState K) (sure : Prop) (v : Version K) (log_number next last : ℕ) :
    Prop where
  disk : OnDisk s.manifest v log_number next last
  next_le : next ≤ s.next_file_number
  log_lt : s.log_number < s.next_file_number
  prev : s.prev_log_number = 0
  counted : Counted s.versions (s.current :: (s.pins ++
    (s.compaction.map CompactionJob.input_version).toList))
  id_lt : ∀ c ∈ s.versions, c.id < s.version_count
  synced : sure → s.current.value = v ∧ s.log_number = log_number ∧ s.damaged = false

namespace Running

variable {s s' : FileState K} {v : Version K} {log_number next last : ℕ} {cause : Cause}
  {record : ManifestRecord K}

variable (h : Running s v log_number next last)
include h

theorem atRest (hbases : s.phase.bases = []) :
    AtRest s s.Trusted v log_number next last :=
  { h with
    counted := FileState.pointers_of_bases hbases ▸ h.counted
    synced := h.trusted }

theorem atRest_ok
    (hphase : s.phase = .writing cause record) (reached : Bool) : ∃ v' log' next' last',
      AtRest (s.endLogAndApply record true reached) s.Trusted v' log' next' last' := by
  obtain ⟨log', next', last', hdisk, hlog, hlt, hprev, hle⟩ := h.written hphase
  have hcounted : Counted (RefCount.unref s.versions s.current.id ++
      [⟨s.version_count, 1, nextVersion s.current.value record.edit⟩])
      (⟨s.version_count, nextVersion s.current.value record.edit⟩ :: (s.pins ++
        (s.compaction.map CompactionJob.input_version).toList)) := by
    have hold := h.counted
    rw [FileState.pointers_of_bases (by rw [hphase]; rfl)] at hold
    exact hold.unref.append (id_lt_unref h.id_lt _) _
  have hid : ∀ c ∈ RefCount.unref s.versions s.current.id ++
      [⟨s.version_count, 1, nextVersion s.current.value record.edit⟩],
      c.id < s.version_count + 1 := by
    intro c hc
    rcases mem_append.1 hc with hc | hc
    · exact Nat.lt_succ_of_lt (id_lt_unref h.id_lt _ c hc)
    · rw [mem_singleton.1 hc]
      exact Nat.lt_succ_self _
  have hnew : record.log_number.getD s.log_number = log' := by rw [hlog]; rfl
  have hzero : record.prev_log_number.getD s.prev_log_number = 0 := by rw [hprev]; rfl
  unfold FileState.endLogAndApply
  rw [if_pos rfl]
  by_cases hlost : (s.damaged && !reached) = true
  · -- behind a damaged record the new one is lost
    simp only [if_pos hlost]
    refine ⟨v, log_number, next, last, ?_⟩
    exact
      { disk := h.disk
        next_le := h.next_le
        log_lt := by rw [hnew]; exact hlt.trans_le hle
        prev := hzero
        counted := hcounted
        id_lt := hid
        synced := fun ht => by
          rw [(h.trusted ht).2.2] at hlost
          cases hlost }
  · simp only [if_neg hlost]
    refine ⟨applyEdit v record.edit, log', next', last', ?_⟩
    exact
      { disk := hdisk
        next_le := hle
        log_lt := by rw [hnew]; exact hlt.trans_le hle
        prev := hzero
        counted := hcounted
        id_lt := hid
        synced := fun ht => by
          obtain ⟨hcurrent, -, hdamaged⟩ := h.trusted ht
          refine ⟨?_, hnew, hdamaged⟩
          simp only [hcurrent, nextVersion_eq] }

theorem atRest_error
    (hphase : s.phase = .writing cause record) (reached : Bool) : ∃ v' log' next' last',
      AtRest (s.endLogAndApply record false reached) (s.descriptor_log = false) v' log' next'
        last' := by
  obtain ⟨log', next', last', hdisk, -, -, -, hle⟩ := h.written hphase
  have hcounted := h.counted
  rw [FileState.pointers_of_bases (by rw [hphase]; rfl)] at hcounted
  unfold FileState.endLogAndApply
  rw [if_neg Bool.false_ne_true]
  by_cases hreached : (s.descriptor_log && reached) = true
  · simp only [if_pos hreached]
    refine ⟨applyEdit v record.edit, log', next', last', ?_⟩
    exact
      { h with
        disk := hdisk
        next_le := hle
        counted := hcounted
        synced := fun hnew => by
          rw [hnew] at hreached
          cases hreached }
  · simp only [if_neg hreached]
    refine ⟨v, log_number, next, last, ?_⟩
    exact
      { h with
        counted := hcounted
        synced := fun hnew => by
          obtain ⟨hcurrent, hlog_number, hdamaged⟩ := h.trusted (Or.inl hnew)
          refine ⟨hcurrent, hlog_number, ?_⟩
          rw [hdamaged, hnew]
          rfl }

theorem atRest_write
    (hphase : s.phase = .writing cause record) (ok reached : Bool) : ∃ v' log' next' last',
      AtRest (s.endLogAndApply record ok reached)
        (s.Trusted ∧ (ok = true ∨ s.descriptor_log = false)) v' log' next' last' := by
  cases ok with
  | true =>
    obtain ⟨v', log', next', last', hrest⟩ := h.atRest_ok hphase reached
    exact ⟨v', log', next', last', { hrest with synced := fun hs => hrest.synced hs.1 }⟩
  | false =>
    obtain ⟨v', log', next', last', hrest⟩ := h.atRest_error hphase reached
    exact ⟨v', log', next', last', { hrest with
      synced := fun hs => hrest.synced (hs.2.resolve_left Bool.false_ne_true) }⟩

theorem added_endLogAndApply (record : ManifestRecord K)
    (ok reached : Bool) : ∀ q ∈ added (s.endLogAndApply record ok reached).manifest,
      q ∈ added s.manifest ∨ q ∈ record.edit.new_files := by
  intro q hq
  unfold FileState.endLogAndApply at hq
  split_ifs at hq
  · exact Or.inl hq
  · exact h.added_written record q hq
  · exact h.added_written record q hq
  · exact Or.inl hq

omit h

end Running

/-- Between two tasks. -/
def Phase.idle : Phase K → Prop
  | .building _ _ => False
  | .writing _ _ => False
  | _ => True

omit [LinearOrder K] in
theorem Phase.bases_of_idle (h : phase.idle) : phase.bases = [] := by
  cases phase with
  | building number base => exact h.elim
  | _ => rfl

omit [LinearOrder K] in
theorem PhaseFits.of_idle (h : phase.idle) :
    PhaseFits adds v next limit outputs phase := by
  cases phase with
  | building number base => exact h.elim
  | writing cause record => exact h.elim
  | _ => trivial

namespace AtRest

variable {s : FileState K} {sure : Prop} {v : Version K} {log_number next last : ℕ}

variable {error : Bool} {phase : Phase K}

/-- **The compaction ends**; the next task can begin. -/
theorem release (h : AtRest s sure v log_number next last)
    (hidle : phase.idle)
    (htrust : { s.releaseCompaction with bg_error := error, phase := phase }.Trusted → sure) :
    Running { s.releaseCompaction with bg_error := error, phase := phase } v log_number next
      last := by
  have hphase : PhaseFits (added s.manifest) v next s.next_file_number [] phase :=
    PhaseFits.of_idle hidle
  have hcounted := h.counted
  unfold FileState.releaseCompaction at htrust ⊢
  cases hc : s.compaction with
  | none =>
    simp only [hc] at htrust ⊢
    rw [hc] at hcounted
    exact
      { h with
        counted := by
          rw [FileState.pointers_of_bases (Phase.bases_of_idle hidle)]
          exact hcounted
        trusted := fun ht => h.synced (htrust ht)
        once := nodup_nil
        output := fun n hn => absurd hn not_mem_nil
        job := nofun
        phase := hphase }
  | some c =>
    simp only [hc] at htrust ⊢
    rw [hc] at hcounted
    exact
      { h with
        counted := by
          rw [FileState.pointers_of_bases (Phase.bases_of_idle hidle)]
          refine (hcounted.perm ?_).unref
          refine List.Perm.trans (List.Perm.cons _ ?_) (List.Perm.swap _ _ _)
          rw [Option.map_none, Option.toList_none, append_nil]
          exact perm_append_singleton _ _
        id_lt := id_lt_unref h.id_lt _
        trusted := fun ht => h.synced (htrust ht)
        once := nodup_nil
        output := fun n hn => absurd hn not_mem_nil
        job := nofun
        phase := hphase }

/-- **The compaction goes on**: its outputs are not in the manifest. -/
theorem resume (h : AtRest s sure v log_number next last) (honce : s.outputs.Nodup)
    (houtput : ∀ n ∈ s.outputs, n < s.next_file_number ∧ n ∈ s.pending_outputs ∧
      ∀ q ∈ added s.manifest, q.2.number ≠ n)
    (hjob : ∀ c ∈ s.compaction, c.level + 1 < kNumLevels) {imm : Bool}
    (hidle : phase.idle)
    (htrust : { s with imm := imm, bg_error := error, phase := phase }.Trusted → sure) :
    Running { s with imm := imm, bg_error := error, phase := phase } v log_number next last :=
  { h with
    counted := by
      rw [FileState.pointers_of_bases (Phase.bases_of_idle hidle)]
      exact h.counted
    trusted := fun ht => h.synced (htrust ht)
    once := honce
    output := houtput
    job := hjob
    phase := PhaseFits.of_idle hidle }

end AtRest

namespace Running

variable {s s' : FileState K} {v : Version K} {log_number next last : ℕ} {cause : Cause}
  {record : ManifestRecord K}

variable (h : Running s v log_number next last)
include h

theorem resume (hphase : s.phase = .writing cause record)
    (hcause : cause ≠ .move ∧ cause ≠ .install) (ok reached : Bool) {imm error : Bool}
    (phase : Phase K) (hidle : phase.idle)
    (htrust : { s.endLogAndApply record ok reached with
        imm := imm, bg_error := error, phase := phase }.Trusted →
      s.Trusted ∧ (ok = true ∨ s.descriptor_log = false)) :
    ∃ v' log' next' last', Running { s.endLogAndApply record ok reached with
        imm := imm, bg_error := error, phase := phase } v' log' next' last' := by
  obtain ⟨v', log', next', last', hrest⟩ := h.atRest_write hphase ok reached
  have hfits := h.phase
  rw [hphase] at hfits
  have hapart := (hfits.apart.resolve_left hcause.1).resolve_left hcause.2
  have hsame : (s.endLogAndApply record ok reached).compaction = s.compaction ∧
      (s.endLogAndApply record ok reached).pending_outputs = s.pending_outputs ∧
      (s.endLogAndApply record ok reached).next_file_number = s.next_file_number := by
    cases ok <;> exact ⟨rfl, rfl, rfl⟩
  obtain ⟨hcompaction, hpending, hnext⟩ := hsame
  have houtputs : (s.endLogAndApply record ok reached).outputs = s.outputs := by
    rw [FileState.outputs, hcompaction]
    rfl
  refine ⟨v', log', next', last', hrest.resume ?_ (fun n hn => ?_) ?_ hidle htrust⟩
  · rw [houtputs]
    exact h.once
  · rw [houtputs] at hn
    obtain ⟨hlt, hmem, hadded⟩ := h.output n hn
    rw [hnext, hpending]
    refine ⟨hlt, hmem, fun q hq => ?_⟩
    rcases h.added_endLogAndApply record ok reached q hq with hq | hq
    · exact hadded q hq
    · rintro rfl
      exact hapart q hq hn
  · rw [hcompaction]
    exact h.job

theorem release (hphase : s.phase = .writing cause record)
    (hcause : cause ≠ .closing) (ok reached : Bool) {phase : Phase K} (hidle : phase.idle) :
    ∃ v' log' next' last', Running { (s.endLogAndApply record ok reached).releaseCompaction with
        bg_error := (s.endLogAndApply record ok reached).bg_error || !ok, phase := phase }
        v' log' next' last' := by
  obtain ⟨v', log', next', last', hrest⟩ := h.atRest_write hphase ok reached
  have hdescriptor : ∀ t : FileState K, t.releaseCompaction.descriptor_log = t.descriptor_log := by
    intro t
    unfold FileState.releaseCompaction
    cases t.compaction <;> rfl
  have huse : s.phase.inUse = true := by
    rw [hphase]
    cases cause <;> first | rfl | exact absurd rfl hcause
  refine ⟨v', log', next', last', hrest.release hidle ?_⟩
  unfold FileState.Trusted
  rw [hdescriptor]
  cases ok with
  | true =>
    rintro (hnone | ⟨herror, -⟩)
    · cases hnone
    · exact ⟨Or.inr ⟨(Bool.or_eq_false_iff.1 herror).1, huse⟩, Or.inl rfl⟩
  | false =>
    rintro (hnone | ⟨herror, -⟩)
    · exact ⟨Or.inl hnone, Or.inr hnone⟩
    · exact absurd (Bool.or_eq_false_iff.1 herror).2 (by decide)

/-- **The end of a manifest write.** -/
theorem endWrite (hphase : s.phase = .writing cause record)
    (ok reached : Bool) : ∃ v' log' next' last',
      Running ((s.endLogAndApply record ok reached).afterWrite cause ok) v' log' next' last' := by
  cases cause with
  | opening =>
    cases ok with
    | true =>
      refine h.resume hphase ⟨nofun, nofun⟩ true reached .collecting trivial ?_
      rintro (hnone | ⟨herror, -⟩)
      · cases hnone
      · exact ⟨Or.inr ⟨herror, by rw [hphase]; rfl⟩, Or.inl rfl⟩
    | false =>
      refine h.resume hphase ⟨nofun, nofun⟩ false reached .closing trivial ?_
      rintro (hnone | ⟨-, huse⟩)
      · exact ⟨Or.inl hnone, Or.inr hnone⟩
      · cases huse
  | flush =>
    cases ok with
    | true =>
      refine h.resume hphase ⟨nofun, nofun⟩ true reached .collecting trivial ?_
      rintro (hnone | ⟨herror, -⟩)
      · cases hnone
      · exact ⟨Or.inr ⟨herror, by rw [hphase]; rfl⟩, Or.inl rfl⟩
    | false =>
      refine h.resume hphase ⟨nofun, nofun⟩ false reached .background trivial ?_
      rintro (hnone | ⟨herror, -⟩)
      · exact ⟨Or.inl hnone, Or.inr hnone⟩
      · cases herror
  | move => exact h.release hphase nofun ok reached trivial
  | install => exact h.release hphase nofun ok reached trivial
  | closing =>
    refine h.resume hphase ⟨nofun, nofun⟩ ok reached .closing trivial ?_
    rintro (hnone | ⟨-, huse⟩)
    · cases ok with
      | true => cases hnone
      | false => exact ⟨Or.inl hnone, Or.inr hnone⟩
    · cases huse

theorem abortCompaction (hphase : s.phase = .background)
    (hs : s.abortCompaction = some s') : Running s' v log_number next last := by
  unfold FileState.abortCompaction at hs
  split_ifs at hs
  obtain rfl := Option.some.inj hs
  refine (h.atRest (by rw [hphase]; rfl)).release trivial ?_
  rintro (hnone | ⟨herror, -⟩)
  · refine Or.inl ?_
    unfold FileState.releaseCompaction at hnone
    cases hc : s.compaction <;> simpa only [hc] using hnone
  · cases herror

theorem idle (hbases : s.phase.bases = [])
    (phase : Phase K) (hidle : phase.idle) (huse : phase.inUse = true → s.phase.inUse = true) :
    Running { s with phase := phase } v log_number next last :=
  (h.atRest hbases).resume h.once h.output h.job hidle fun ht =>
    ht.imp_right fun ⟨herror, hinUse⟩ => ⟨herror, huse hinUse⟩

/-- **A collection.** -/
theorem deleteObsoleteFiles (hphase : s.phase = .collecting) :
    Running { s.deleteObsoleteFiles with phase := .background } v log_number next last := by
  have hnext := h.idle (by rw [hphase]; rfl) .background trivial
    fun _ => by rw [hphase]; rfl
  unfold FileState.deleteObsoleteFiles
  split_ifs
  · exact hnext
  · exact { hnext with }

theorem closeTable (hphase : s.phase = .closing)
    {level : ℕ} {file : FileMetaData K} (hs : s.closeTable level file = some s') :
    Running s' v log_number next last := by
  unfold FileState.closeTable at hs
  split_ifs at hs with hfile
  obtain ⟨hlevel, hnumber⟩ := hfile
  exact logAndApply_file hs s.phase (h.newFileNumber _ s.logs) (by rw [hphase]; rfl)
    (fun hne => absurd rfl hne) hlevel (h.number_ne hnumber.ge)
    (by rw [hnumber]; exact Nat.lt_succ_self _) rfl (h.not_mem_outputs hnumber.ge)

theorem crash (reached : Bool) :
    ∃ v' log' next' last', OnDisk (s.crash reached).manifest v' log' next' last' := by
  unfold FileState.crash
  cases hphase : s.phase with
  | writing cause record =>
    cases reached with
    | true =>
      obtain ⟨log', next', last', hdisk, -⟩ := h.written hphase
      exact ⟨_, log', next', last', hdisk⟩
    | false => exact ⟨v, log_number, next, last, h.disk⟩
  | _ => exact ⟨v, log_number, next, last, h.disk⟩

omit h

end Running

/-! ### Opening -/

section

variable {s s' : FileState K} {v : Version K} {log_number next last : ℕ}

variable {r : Opening K}

theorem OnDisk.opened (h : OnDisk s.manifest v log_number next last) {rv : RecoveredVersion K}
    (hrv : recoverManifest s.manifest = .ok rv)
    (hnext : rv.next_file_number ≤ r.next_file_number) :
    Running (s.opened rv r) v log_number next last := by
  rw [h.recoverManifest_eq] at hrv
  obtain rfl := Except.ok.inj hrv
  exact
    { disk := h
      next_le := Nat.le_of_succ_le hnext
      log_lt := h.log_lt.trans (Nat.lt_of_succ_le hnext)
      prev := rfl
      counted := ⟨nodup_singleton _, fun c hc => by rw [mem_singleton.1 hc]; rfl,
        fun p hp => ⟨_, mem_singleton_self _, by rw [mem_singleton.1 hp]; exact ⟨rfl, rfl⟩⟩⟩
      id_lt := fun c hc => by rw [mem_singleton.1 hc]; exact Nat.zero_lt_one
      trusted := fun _ => ⟨rfl, rfl, rfl⟩
      once := nodup_nil
      output := fun n hn => absurd hn not_mem_nil
      job := nofun
      phase := trivial }

/-- **The database is opened.** -/
theorem OnDisk.openDB (h : OnDisk s.manifest v log_number next last)
    (hs : s.openDB r = some s') : Running s' v log_number next last := by
  have hopened := fun hnext => h.opened h.recoverManifest_eq (r := r) hnext
  unfold FileState.openDB at hs
  simp only [h.recoverManifest_eq] at hs
  split_ifs at hs with hnumbers hsave hreuse
  · obtain ⟨honce, hfiles, hnext⟩ := hnumbers
    refine Running.logAndApply hs .collecting ?_ rfl (fun _ => rfl) (.fresh ?_ (fun p hp q hq => ?_)
      fun p hp => ?_) (fun p hp => ?_) rfl (Or.inr (Or.inr fun p hp => not_mem_nil))
    · exact hopened hnext
    · rw [map_map]
      exact honce
    · obtain ⟨f, hf, rfl⟩ := mem_map.1 hp
      have := h.number q hq
      have := (hfiles f hf).1
      simp only
      omega
    · obtain ⟨f, hf, rfl⟩ := mem_map.1 hp
      exact (by decide : 0 < kNumLevels)
    · obtain ⟨f, hf, rfl⟩ := mem_map.1 hp
      exact (hfiles f hf).2
  · obtain rfl := Option.some.inj hs
    exact hopened hnumbers.2.2

end

/-! ### Every run -/

/-- The directory can be recovered, and while the database is open its invariant holds. -/
def Collectable (s : FileState K) : Prop :=
  ∃ v log_number next last, OnDisk s.manifest v log_number next last ∧
    (s.isClosed = false → Running s v log_number next last)

section

variable {s s' : FileState K}

theorem Running.collectable {v : Version K} {log_number next last : ℕ}
    (h : Running s v log_number next last) : Collectable s :=
  ⟨v, log_number, next, last, h.disk, fun _ => h⟩

theorem collectable_newDB : Collectable (FileState.newDB : FileState K) := by
  refine ⟨fun _ => [], 0, 2, 0, ?_, nofun⟩
  have hempty : Extends (added ([] : List (ManifestRecord K))) (fun _ => []) ⟨[], []⟩ :=
    .fresh nodup_nil nofun nofun
  exact
    { version := by
        have hlog : Loggable (fun _ => []) [(⟨[], []⟩ : VersionEdit K)] := ⟨nodup_nil, nofun⟩
        rw [show FileState.newDB.manifest.map ManifestRecord.edit =
          [(⟨[], []⟩ : VersionEdit K)] from
          rfl, recoverVersion_eq_foldl hlog]
        rfl
      loggable := ⟨nodup_nil, nofun⟩
      number := nofun
      next_file := rfl
      log := rfl
      log_lt := by decide
      prev := rfl
      sequence := rfl
      climbs := ⟨nofun, nofun⟩
      level := nofun }

/-- **Every step keeps the directory recoverable.** -/
theorem Collectable.step (h : Collectable s) (a : FileAction K) (hs : fileStep s a = some s') :
    Collectable s' := by
  obtain ⟨v, log_number, next, last, hdisk, hopen⟩ := h
  -- an action of an open database
  have hrunning : ∀ {phase : Phase K}, s.phase = phase → phase ≠ .closed →
      Running s v log_number next last := by
    intro phase hphase hne
    refine hopen ?_
    unfold FileState.isClosed
    rw [hphase]
    cases phase <;> first | rfl | exact absurd rfl hne
  cases fileStep_moves hs with
  | ref hnot => exact (hopen hnot).ref.collectable
  | unref hnot hs => exact ((hopen hnot).unref hs).collectable
  | write hnot => exact Running.collectable { hopen hnot with }
  | switchMemTable hnot hs => exact ((hopen hnot).switchMemTable hs).collectable
  | startFlush hphase hs => exact ((hrunning hphase nofun).startFlush hphase hs).collectable
  | endBuildTable hphase hs => exact ((hrunning hphase nofun).endBuildTable hphase hs).collectable
  | startCompaction hphase hs =>
    exact ((hrunning hphase nofun).startCompaction hphase hs).collectable
  | trivialMove hphase hs => exact ((hrunning hphase nofun).trivialMove hphase hs).collectable
  | openOutput hphase hs => exact ((hrunning hphase nofun).openOutput hphase hs).collectable
  | installCompaction hphase hs =>
    exact ((hrunning hphase nofun).installCompaction hphase hs).collectable
  | abortCompaction hphase hs =>
    exact ((hrunning hphase nofun).abortCompaction hphase hs).collectable
  | endWrite hphase =>
    obtain ⟨v', log', next', last', hrun⟩ := (hrunning hphase nofun).endWrite hphase _ _
    exact hrun.collectable
  | deleteObsoleteFiles hphase =>
    exact ((hrunning hphase nofun).deleteObsoleteFiles hphase).collectable
  | close hphase =>
    exact ((hrunning hphase nofun).idle (by rw [hphase]; rfl) .closing trivial nofun).collectable
  | closeTable hphase hs => exact ((hrunning hphase nofun).closeTable hphase hs).collectable
  | crash hnot =>
    obtain ⟨v', log', next', last', hcrash⟩ := (hopen hnot).crash _
    exact ⟨v', log', next', last', hcrash, nofun⟩
  | openDB hs => exact (hdisk.openDB hs).collectable
  | failOpen hclosed =>
    exact ⟨v, log_number, next, last, hdisk, fun hnot => absurd (hclosed.symm.trans hnot) nofun⟩

end

/-- A version has a file with the number. -/
def Version.Names (v : Version K) (number : ℕ) : Prop :=
  ∃ level < kNumLevels, ∃ f ∈ v level, f.number = number

omit [LinearOrder K] in
theorem mem_liveFiles {s : FileState K} {number : ℕ} :
    number ∈ s.liveFiles ↔ ∃ c ∈ s.versions, Version.Names c.value number := by
  simp only [FileState.liveFiles, mem_flatMap, mem_map, mem_range, Version.Names]

/-- **No collection removes a file that is needed**: a table of a version in use, an output that is
being written, a table that recovery would look for, or a log that it would replay. -/
theorem deleteObsoleteFiles_keeps {actions : List (FileAction K)} {s s' : FileState K}
    (hrun : Steps.run fileStep FileState.newDB actions = some s)
    (hs : fileStep s .deleteObsoleteFiles = some s') :
    ∃ rv, recoverManifest s.manifest = .ok rv ∧
      (∀ number ∈ s.tables, number ∉ s'.tables →
        (∀ p ∈ s.pointers, ¬ Version.Names p.value number) ∧ number ∉ s.pending_outputs ∧
          ¬ Version.Names rv.current number) ∧
      ∀ number ∈ s.logs, number ∉ s'.logs →
        ¬ (rv.log_number ≤ number ∨ number = rv.prev_log_number) := by
  have hcollectable : Collectable s := Steps.invariant (fun _ a _ h _ hstep => h.step a hstep)
    collectable_newDB (Steps.meets_true _ _) hrun
  obtain ⟨v, log_number, next, last, hdisk, hopen⟩ := hcollectable
  refine ⟨_, hdisk.recoverManifest_eq, ?_⟩
  simp only [fileStep] at hs
  cases hphase : s.phase with
  | collecting =>
    simp only [hphase, Option.some.injEq] at hs
    subst hs
    have h := hopen (by rw [FileState.isClosed, hphase])
    unfold FileState.deleteObsoleteFiles
    by_cases herror : s.bg_error = true
    · -- after an error nothing is removed
      simp only [if_pos herror]
      exact ⟨fun number hin hout => absurd hin hout, fun number hin hout => absurd hin hout⟩
    · simp only [if_neg herror, Finset.mem_filter, not_and, not_or]
      obtain ⟨hcurrent, hlog, -⟩ :=
        h.trusted (Or.inr ⟨Bool.eq_false_iff.2 herror, by rw [hphase]; rfl⟩)
      refine ⟨fun number hin hout => ?_, fun number hin hout => ?_⟩
      · obtain ⟨hpending, hlive⟩ := hout hin
        have hpointers : ∀ p ∈ s.pointers, ¬ Version.Names p.value number := by
          intro p hp hnames
          obtain ⟨c, hc, -, hvalue⟩ := h.counted.held p hp
          exact hlive (mem_liveFiles.2 ⟨c, hc, by rw [hvalue]; exact hnames⟩)
        refine ⟨hpointers, hpending, ?_⟩
        rw [← hcurrent]
        exact hpointers s.current mem_cons_self
      · rw [← hlog, ← h.prev]
        exact hout hin
  | _ => rw [hphase] at hs; cases hs

/-- A reader keeps the first version; a table is written and compacted into another one. -/
def collectionRun : List (FileAction ℕ) :=
  let file (number : ℕ) : FileMetaData ℕ := ⟨number, 100, ⟨1, 2, .value⟩, ⟨5, 1, .value⟩⟩
  [.openDB ⟨false, true, 0, [], 4, 3⟩, .endWrite true true, .deleteObsoleteFiles, .ref, .write 2,
    .switchMemTable, .startFlush, .endBuildTable (.written 0 (file 5)), .endWrite true true,
    .deleteObsoleteFiles, .startCompaction 0 [file 5] [], .openOutput true,
    .installCompaction [file 6], .endWrite true true]

theorem deleteObsoleteFiles_keeps_compaction : ∃ s s',
    Steps.run fileStep FileState.newDB collectionRun = some s ∧
      fileStep s .deleteObsoleteFiles = some s' ∧ s.tables = {5, 6} ∧ s'.tables = {6} ∧
      ∃ rv, recoverManifest s.manifest = .ok rv ∧
        (∀ number ∈ s.tables, number ∉ s'.tables →
          (∀ p ∈ s.pointers, ¬ Version.Names p.value number) ∧ number ∉ s.pending_outputs ∧
            ¬ Version.Names rv.current number) ∧
        ∀ number ∈ s.logs, number ∉ s'.logs →
          ¬ (rv.log_number ≤ number ∨ number = rv.prev_log_number) := by
  have heval : ((Steps.run fileStep FileState.newDB collectionRun).bind fun s =>
      (fileStep s .deleteObsoleteFiles).map fun s' =>
        decide (s.tables = {5, 6} ∧ s'.tables = {6})) = some true := by decide +kernel
  obtain ⟨s, hrun, hmap⟩ := Option.bind_eq_some_iff.1 heval
  obtain ⟨s', hs, htables⟩ := Option.map_eq_some_iff.1 hmap
  obtain ⟨hbefore, hafter⟩ := of_decide_eq_true htables
  exact ⟨s, s', hrun, hs, hbefore, hafter, deleteObsoleteFiles_keeps hrun hs⟩

end Bourbon
