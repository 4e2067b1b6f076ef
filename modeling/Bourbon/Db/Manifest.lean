import Bourbon.Db.VersionSet
import Bourbon.Table.Block

/-!
# The manifest

The list of the records of a manifest, each of them a version edit with the numbers that it sets.

* `recoverManifest` : `VersionSet::Recover`;
* `ManifestOf` : a manifest from which recovery makes a version and takes the numbers, with what
  `LogAndApply` does to it (`ManifestOf.append`, `IsVersion.manifestOf`).
-/

namespace Bourbon

open List

/-- A record of the manifest: a version edit with the numbers that it sets. -/
structure ManifestRecord (K : Type*) where
  edit : VersionEdit K
  log_number : Option ℕ
  prev_log_number : Option ℕ
  next_file_number : Option ℕ
  last_sequence : Option ℕ
  compact_pointers : List (ℕ × InternalKey K)

/-- What `VersionSet::Recover` fills in. -/
structure RecoveredVersion (K : Type*) where
  current : Version K
  manifest_file_number : ℕ
  next_file_number : ℕ
  last_sequence : ℕ
  log_number : ℕ
  prev_log_number : ℕ
  compact_pointer : ℕ → Option (InternalKey K)

section

variable {K : Type*} [LinearOrder K]

/-- The last value that is set for a number. -/
def lastSet (field : ManifestRecord K → Option ℕ) (records : List (ManifestRecord K)) : Option ℕ :=
  records.foldl (fun n record => (field record).or n) none

/-- The compaction pointers after the edit of a record. -/
def setCompactPointers (compact_pointer : ℕ → Option (InternalKey K)) (record : ManifestRecord K) :
    ℕ → Option (InternalKey K) :=
  record.compact_pointers.foldl (fun ptr p => Function.update ptr p.1 (some p.2)) compact_pointer

/-- `VersionSet::Recover`. -/
def recoverManifest (records : List (ManifestRecord K)) : Except Status (RecoveredVersion K) :=
  match lastSet (·.next_file_number) records with
  | none => .error (.corruption "no meta-nextfile entry in descriptor")
  | some next_file =>
    match lastSet (·.log_number) records with
    | none => .error (.corruption "no meta-lognumber entry in descriptor")
    | some log_number =>
      match lastSet (·.last_sequence) records with
      | none => .error (.corruption "no last-sequence-number entry in descriptor")
      | some last_sequence =>
        .ok
          { current := recoverVersion (records.map ManifestRecord.edit)
            manifest_file_number := next_file
            next_file_number := next_file + 1
            last_sequence := last_sequence
            log_number := log_number
            prev_log_number := (lastSet (·.prev_log_number) records).getD 0
            compact_pointer := records.foldl setCompactPointers fun _ => none }

/-- The record of `WriteSnapshot`. -/
def snapshotRecord (v : Version K) (compact_pointer : ℕ → Option (InternalKey K)) :
    ManifestRecord K :=
  { edit := writeSnapshot v
    log_number := none
    prev_log_number := none
    next_file_number := none
    last_sequence := none
    compact_pointers := (List.range kNumLevels).filterMap fun level =>
      (compact_pointer level).map fun key => (level, key) }

/-! ### Recovery -/

omit [LinearOrder K] in
theorem lastSet_append (field : ManifestRecord K → Option ℕ) (records : List (ManifestRecord K))
    (record : ManifestRecord K) :
    lastSet field (records ++ [record]) = (field record).or (lastSet field records) := by
  rw [lastSet, foldl_append]
  rfl

/-- A manifest from which recovery makes the version and takes the numbers. -/
structure ManifestOf (records : List (ManifestRecord K)) (v : Version K)
    (log_number next last : ℕ) : Prop where
  version : recoverVersion (records.map ManifestRecord.edit) = v
  loggable : Loggable (fun _ => []) (records.map ManifestRecord.edit)
  number : ∀ p ∈ (records.map ManifestRecord.edit).flatMap VersionEdit.new_files,
    p.2.number < next
  next_file : lastSet (·.next_file_number) records = some next
  log : lastSet (·.log_number) records = some log_number
  log_lt : log_number < next
  prev : (lastSet (·.prev_log_number) records).getD 0 = 0
  sequence : lastSet (·.last_sequence) records = some last

variable {records : List (ManifestRecord K)} {v : Version K} {edit : VersionEdit K}
  {log_number next last log' next' last' : ℕ} {compact_pointers : List (ℕ × InternalKey K)}

/-- **A record is appended.** -/
theorem ManifestOf.append (h : ManifestOf records v log_number next last)
    (hlog : Loggable (fun _ => []) (records.map ManifestRecord.edit ++ [edit]))
    (hnumber : ∀ p ∈ edit.new_files, p.2.number < next') (hnext : next ≤ next')
    (hlt : log' < next') :
    ManifestOf (records ++ [⟨edit, some log', some 0, some next', some last', compact_pointers⟩])
      (applyEdit v edit) log' next' last' where
  version := by
    rw [map_append, map_singleton, recoverVersion_eq_foldl hlog, foldl_append,
      ← recoverVersion_eq_foldl h.loggable, h.version]
    rfl
  loggable := by
    rw [map_append]
    exact hlog
  number := by
    intro p hp
    rw [map_append, flatMap_append, map_singleton, flatMap_singleton] at hp
    rcases mem_append.1 hp with hp | hp
    · exact (h.number p hp).trans_le hnext
    · exact hnumber p hp
  next_file := lastSet_append _ _ _
  log := lastSet_append _ _ _
  log_lt := hlt
  prev := by
    rw [lastSet_append]
    rfl
  sequence := lastSet_append _ _ _

/-- **A new manifest starts with a snapshot.** -/
theorem IsVersion.manifestOf (hv : IsVersion v) (hlog : Loggable v [edit])
    (hold : ∀ level, ∀ f ∈ v level, f.number < next')
    (hnew : ∀ p ∈ edit.new_files, p.2.number < next') (hlt : log' < next')
    {compact_pointer : ℕ → Option (InternalKey K)} :
    ManifestOf [snapshotRecord v compact_pointer,
      ⟨edit, some log', some 0, some next', some last', compact_pointers⟩]
      (applyEdit v edit) log' next' last' where
  version := hv.recoverVersion_snapshot hlog
  loggable := hv.loggable_snapshot hlog
  number := by
    intro p hp
    have hp : p ∈ (writeSnapshot v).new_files ++ edit.new_files := by
      simpa [snapshotRecord] using hp
    rcases mem_append.1 hp with hp | hp
    · exact hold p.1 p.2 (mem_writeSnapshot.1 hp).2
    · exact hnew p hp
  next_file := rfl
  log := rfl
  log_lt := hlt
  prev := rfl
  sequence := rfl

theorem ManifestOf.recoverManifest_eq (h : ManifestOf records v log_number next last) :
    recoverManifest records = .ok
      { current := v
        manifest_file_number := next
        next_file_number := next + 1
        last_sequence := last
        log_number := log_number
        prev_log_number := 0
        compact_pointer := records.foldl setCompactPointers fun _ => none } := by
  simp only [recoverManifest, h.next_file, h.log, h.sequence, h.prev, h.version]

end

end Bourbon
