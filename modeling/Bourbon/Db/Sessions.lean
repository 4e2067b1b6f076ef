import Bourbon.Lib.Steps
import Bourbon.Db.LevelModel
import Bourbon.Db.VersionEdit
import Bourbon.Mod.ModelFile
import Bourbon.Table.Table

/-!
# Sessions

A database lives through sessions.  `DB::Open` recovers the version and loads the model files;
flushes, moves and compactions build tables and install edits; `LevelLearn` and `FileLearn` train
models; closing writes the models if `fresh_write` is set.  `DestroyDB` deletes the database, but
not its model files.

Some history is kept beside the data of the program: the keys a model object was trained on
(`trained_on`), and for a model file the keys of its level when it was written (`saved_for`) and the
number of `DestroyDB` calls before that (`epoch`).

* `StoreAction`, `storeStep` : the actions and what they do;
* `loadModel_spec`, `TrackedModel.learn_spec` : what loading and training do to one object;
* `recoverTables_spec` : the tables that `Open` writes are new files.
-/

namespace Bourbon

open List Function

open LearnedIndexData

/-! ### The state -/

/-- A model object, with the keys of its last successful training. -/
structure TrackedModel where
  data : LearnedIndexData
  trained_on : List Bytes

/-- A model file, with its history. -/
structure SavedModel where
  words : List Word
  trained_on : List Bytes
  saved_for : List Bytes
  epoch : ℕ

/-- The entries of a table file, data block by data block. -/
abbrev TableBlocks := List (List (Bytes × Bytes))

/-- What a database directory holds. -/
structure Disk where
  /-- The version in the manifest and the next file number; `none` if there is no database. -/
  manifest : Option (Version Bytes × ℕ)
  /-- Table files, by number. -/
  tables : ℕ → Option TableBlocks
  /-- The files `<level>.model`. -/
  models : ℕ → Option SavedModel
  /-- The files `<number>.fmodel`. -/
  fmodels : ℕ → Option SavedModel
  epoch : ℕ

/-- The process-wide settings that models depend on. -/
structure ModelOptions where
  file_model_error : ℕ
  level_model_error : ℕ
  load_level_model : Bool
  load_file_model : Bool

/-- A fresh model object. -/
def ModelOptions.newModel (o : ModelOptions) (is_level : Bool) : TrackedModel :=
  ⟨LearnedIndexData.new o.file_model_error o.level_model_error is_level, []⟩

/-- An open database. -/
structure Session where
  options : ModelOptions
  current : Version Bytes
  next_file_number : ℕ
  /-- Tables built and not installed yet. -/
  pending_outputs : List ℕ
  /-- `learned_index_data_` of the current version. -/
  level_models : ℕ → TrackedModel
  /-- `adgMod::file_data`. -/
  file_models : ℕ → Option TrackedModel

/-- A database directory, with the session in which it is open. -/
structure StoreState where
  disk : Disk
  session : Option Session

/-- The number belongs to a file of the version. -/
def isLive (v : Version Bytes) (number : ℕ) : Bool :=
  (List.range kNumLevels).any fun level => (v level).any fun f => f.number = number

/-- `FileLearnedIndexData::GetModel`. -/
def Session.getModel (x : Session) (number : ℕ) : TrackedModel :=
  (x.file_models number).getD (x.options.newModel false)

/-- A table that `Open` writes from a log file. -/
structure RecoveredTable where
  file : FileMetaData Bytes
  blocks : TableBlocks

/-- Steps of sessions. -/
inductive StoreAction where
  | openDB (options : ModelOptions) (recovered : List RecoveredTable)
  /-- A number for a log or a manifest. -/
  | newFileNumber
  /-- Write the table file of a flush or a compaction. -/
  | buildTable (blocks : TableBlocks)
  | logAndApply (edit : VersionEdit Bytes)
  /-- `keep` are the files of older versions that are still in use. -/
  | deleteObsoleteFiles (keep : List ℕ)
  /-- `entered`: the version is still the caller's; `idle`: no compaction is awaited once the
  level has been filled. -/
  | levelLearn (level : ℕ) (entered idle : Bool) (awaiting : ℕ → Bool) (cost : ℕ)
  | fileLearn (number level : ℕ) (awaiting : ℕ → Bool) (cost : ℕ)
  | closeDB (fresh_write : Bool) (g : BlockGeometry)
  | destroyDB

/-! ### Opening -/

/-- `ReadModel` into a fresh object; `none` stands for a file that is not a model file. -/
def loadModel (saved : Option SavedModel) (fresh : TrackedModel) : Option TrackedModel :=
  match readModel (saved.map SavedModel.words) ⟨0, 0, 0, false⟩ fresh.data with
  | none => none
  | some (_, data) => some ⟨data, (saved.map SavedModel.trained_on).getD fresh.trained_on⟩

/-- The tables written from log files.  Each takes a new number; logs take numbers between them. -/
def recoverTables : List RecoveredTable → ℕ → (ℕ → Option TableBlocks) →
    Option (ℕ × (ℕ → Option TableBlocks))
  | [], next, tables => some (next, tables)
  | r :: rest, next, tables =>
    if r.file.number < next then none
    else recoverTables rest (r.file.number + 1)
      (update tables r.file.number (some r.blocks))

/-- The edit that `Open` applies: the recovered tables go to level 0. -/
def recoverEdit (recovered : List RecoveredTable) : VersionEdit Bytes :=
  ⟨[], recovered.map fun r => (0, r.file)⟩

namespace Disk

/-- The version and the next file number that `Recover` finds, or `NewDB` writes. -/
def recover (d : Disk) : Version Bytes × ℕ := d.manifest.getD (fun _ => [], 2)

/-- The version after recovery. -/
def recoveredVersion (d : Disk) (recovered : List RecoveredTable) : Version Bytes :=
  applyEdit d.recover.1 (recoverEdit recovered)

/-- `DeleteObsoleteFiles`.  Model files are not among the files it knows. -/
def deleteObsoleteFiles (d : Disk) (current : Version Bytes) (keep : List ℕ) : Disk :=
  { d with tables := fun n => if isLive current n || keep.contains n then d.tables n else none }

/-- `ReadLevelModel` for the model of a level. -/
def loadLevel (d : Disk) (o : ModelOptions) (level : ℕ) : Option TrackedModel :=
  if o.load_level_model && decide (level < kNumLevels) then
    loadModel (d.models level) (o.newModel true)
  else some (o.newModel true)

/-- `ReadLevelModel` for the model of a file. -/
def loadFile (d : Disk) (o : ModelOptions) (number : ℕ) : Option TrackedModel :=
  if o.load_file_model then loadModel (d.fmodels number) (o.newModel false)
  else some (o.newModel false)

/-- `DB::Open`.  The manifest takes the next number, the new log the one behind the recovered
tables. -/
def openDB (d : Disk) (o : ModelOptions) (recovered : List RecoveredTable) : Option StoreState :=
  match recoverTables recovered (d.recover.2 + 1) d.tables with
  | none => none
  | some (next, tables) =>
    let current := d.recoveredVersion recovered
    if (List.range kNumLevels).all (fun i => (d.loadLevel o i).isSome &&
        (current i).all fun f => (d.loadFile o f.number).isSome) then
      some
        { disk := deleteObsoleteFiles
            { d with manifest := some (current, next + 1), tables := tables } current []
          session := some
            { options := o
              current := current
              next_file_number := next + 1
              pending_outputs := []
              level_models := fun i => (d.loadLevel o i).getD (o.newModel true)
              file_models := fun n => if isLive current n then d.loadFile o n else none } }
    else none

/-- `DestroyDB`.  It does not know model files either. -/
def destroyDB (d : Disk) : Disk :=
  { d with manifest := none, tables := fun _ => none, epoch := d.epoch + 1 }

end Disk

/-! ### Steps of a session -/

/-- `Learn`, with its history. -/
def TrackedModel.learn (m : TrackedModel) (awaiting : ℕ → Bool) : Option TrackedModel :=
  match m.data.learn awaiting with
  | none => none
  | some (data, success) => some ⟨data, if success then data.string_keys else m.trained_on⟩

/-- `Table::FillData` on the table with the given blocks, see `fillData_eq_fillFile`. -/
def fillFile (blocks : TableBlocks) (data : LearnedIndexData) : LearnedIndexData :=
  if data.filled then data else { blocks.foldl Table.collect data with filled := true }

/-- `WriteModel` for one object: an object that is not learned leaves an older file. -/
def saveModel (g : BlockGeometry) (epoch : ℕ) (m : TrackedModel) (keys : List Bytes)
    (old : Option SavedModel) : Option SavedModel :=
  match m.data.writeModel g with
  | none => old
  | some words => some ⟨words, m.trained_on, keys, epoch⟩

namespace Session

/-- `LogAndApply` with `ApplyToModel`: a level that the edit names gets a fresh model.  New files
have been built in this session, or move from another level. -/
def logAndApply (d : Disk) (x : Session) (edit : VersionEdit Bytes) : Option StoreState :=
  if edit.new_files.all fun p => decide (p.1 < kNumLevels) &&
      (x.pending_outputs.contains p.2.number || isLive x.current p.2.number) then
    let current := applyEdit x.current edit
    some
      { disk := { d with manifest := some (current, x.next_file_number) }
        session := some { x with
          current := current
          level_models := fun i =>
            if i = 0 ∨ edit.changes i = true then x.options.newModel true
            else x.level_models i } }
  else none

/-- The model of a level after the first part of `LevelLearn`, and whether it goes on to train. -/
def fillLevelModel (x : Session) (level : ℕ) (entered idle : Bool) : TrackedModel × Bool :=
  let m := x.level_models level
  let data := { m.data with is_level := true, level := level }
  if entered then
    let r := fillLevel (x.current level) data
    (⟨{ r.1 with filled := r.2 || r.1.filled }, m.trained_on⟩, r.2 && idle)
  else (⟨data, m.trained_on⟩, false)

/-- `LevelLearn`. -/
def levelLearn (x : Session) (level : ℕ) (entered idle : Bool) (awaiting : ℕ → Bool) (cost : ℕ) :
    Option Session :=
  if level < kNumLevels then
    let r := x.fillLevelModel level entered idle
    let m := if r.2 then r.1.learn awaiting else some r.1
    m.map fun m => { x with
      level_models := update x.level_models level
        { m with data := { m.data with cost := if entered then cost else m.data.cost } } }
  else none

/-- `FileLearn`.  If the table cannot be opened, only the level is noted. -/
def fileLearn (d : Disk) (x : Session) (number level : ℕ) (awaiting : ℕ → Bool) (cost : ℕ) :
    Option Session :=
  if number < x.next_file_number then
    let m := x.getModel number
    let data := { m.data with level := level }
    match d.tables number with
    | none => some { x with
        file_models := update x.file_models number (some ⟨data, m.trained_on⟩) }
    | some blocks =>
      (TrackedModel.learn ⟨fillFile blocks data, m.trained_on⟩ awaiting).map fun m => { x with
        file_models := update x.file_models number
          (some { m with data := { m.data with cost := cost } }) }
  else none

/-- Closing the database; `WriteLevelModel` runs if `fresh_write` is set. -/
def close (d : Disk) (x : Session) (fresh_write : Bool) (g : BlockGeometry) : Disk :=
  if fresh_write then
    { d with
      models := fun i =>
        if i < kNumLevels then
          saveModel g d.epoch (x.level_models i) (boundaryKeys (x.current i)) (d.models i)
        else d.models i
      fmodels := fun n =>
        if isLive x.current n then
          saveModel g d.epoch (x.getModel n) (x.getModel n).trained_on (d.fmodels n)
        else d.fmodels n }
  else d

end Session

/-- One action. -/
def storeStep (s : StoreState) (a : StoreAction) : Option StoreState :=
  match s.session, a with
  | none, .openDB options recovered => s.disk.openDB options recovered
  | none, .destroyDB => some ⟨s.disk.destroyDB, none⟩
  | some x, .newFileNumber =>
    some ⟨s.disk, some { x with next_file_number := (newFileNumber x.next_file_number).2 }⟩
  | some x, .buildTable blocks =>
    let (number, next) := newFileNumber x.next_file_number
    some ⟨{ s.disk with tables := update s.disk.tables number (some blocks) },
      some { x with next_file_number := next, pending_outputs := number :: x.pending_outputs }⟩
  | some x, .logAndApply edit => x.logAndApply s.disk edit
  | some x, .deleteObsoleteFiles keep =>
    some ⟨s.disk.deleteObsoleteFiles x.current (x.pending_outputs ++ keep), some x⟩
  | some x, .levelLearn level entered idle awaiting cost =>
    (x.levelLearn level entered idle awaiting cost).map fun x => ⟨s.disk, some x⟩
  | some x, .fileLearn number level awaiting cost =>
    (x.fileLearn s.disk number level awaiting cost).map fun x => ⟨s.disk, some x⟩
  | some x, .closeDB fresh_write g => some ⟨x.close s.disk fresh_write g, none⟩
  | _, _ => none

/-- An empty directory. -/
def StoreState.init : StoreState :=
  ⟨⟨none, fun _ => none, fun _ => none, fun _ => none, 0⟩, none⟩

/-! ### What loading and training do to an object -/

variable {m : TrackedModel}

theorem loadModel_spec {saved : Option SavedModel} {o : ModelOptions} {is_level : Bool}
    (h : loadModel saved (o.newModel is_level) = some m) :
    m.data.filled = false ∧ m.data.string_keys = [] ∧
      (m.data.learned = true → ∃ f, saved = some f ∧ m.trained_on = f.trained_on) := by
  rw [loadModel] at h
  split at h
  · cases h
  · rename_i g data hread
    obtain ⟨hkeys, hfilled, hlearned⟩ := readModel_frame hread
    obtain rfl := Option.some.inj h
    refine ⟨hfilled, hkeys, fun hl => ?_⟩
    cases saved with
    | none => exact absurd (hlearned hl rfl) (by simp [ModelOptions.newModel, new])
    | some f => exact ⟨f, rfl, rfl⟩

variable {awaiting : ℕ → Bool}

/-- Training keeps the collected keys.  An object that is learned afterwards was trained on them
now, or was learned before. -/
theorem TrackedModel.learn_spec {m' : TrackedModel}
    (h : m.learn awaiting = some m') :
    m'.data.string_keys = m.data.string_keys ∧ m'.data.filled = m.data.filled ∧
      (m'.data.learned = true → m'.trained_on = m.data.string_keys ∨
        m.data.learned = true ∧ m'.trained_on = m.trained_on) := by
  rw [TrackedModel.learn] at h
  split at h
  · cases h
  · rename_i data success hlearn
    obtain ⟨-, hkeys, hfilled, hfail⟩ := learn_frame hlearn
    obtain rfl := Option.some.inj h
    refine ⟨hkeys, hfilled, fun hl => ?_⟩
    cases success with
    | true => exact Or.inl hkeys
    | false => exact Or.inr ⟨(hfail rfl).symm.trans hl, rfl⟩

theorem fillFile_spec (blocks : TableBlocks) (data : LearnedIndexData) :
    (fillFile blocks data).filled = true ∧
      (fillFile blocks data).string_keys = (if data.filled then data.string_keys
        else data.string_keys ++ Table.userKeys blocks.flatten) ∧
      (fillFile blocks data).learned = data.learned := by
  by_cases h : data.filled = true
  · rw [fillFile, if_pos h, if_pos h]
    exact ⟨h, rfl, rfl⟩
  · obtain ⟨hkeys, -, -, hlearned⟩ := Table.foldl_collect blocks data
    rw [fillFile, if_neg h, if_neg h]
    exact ⟨rfl, hkeys, hlearned⟩

/-- **`fillFile` is what `FillData` does** on a table file with these blocks. -/
theorem fillData_eq_fillFile {crc : Bytes → UInt32} {R : ℕ} {blocks : TableBlocks} {t : Table}
    (h : Table.IsTable crc R blocks t) (hne : blocks ≠ [])
    (hkeys : ∀ e ∈ blocks.flatten, 8 ≤ e.1.length) (verify : Bool) (data : LearnedIndexData)
    (g : BlockGeometry) :
    (t.fillData crc verify data g).map Prod.fst = some (fillFile blocks data) := by
  by_cases hfilled : data.filled = true
  · rw [Table.fillData, if_pos hfilled, fillFile, if_pos hfilled, Option.map_some]
  · rw [Table.fillData_spec h verify hne hkeys (Bool.not_eq_true _ ▸ hfilled), fillFile,
      if_neg hfilled, Option.map_some]

/-- The object of a level before training: the keys of the level have been added if it trains. -/
theorem Session.fillLevelModel_spec (x : Session) (level : ℕ) (entered idle : Bool) :
    (x.fillLevelModel level entered idle).1.data.learned = (x.level_models level).data.learned ∧
    (x.fillLevelModel level entered idle).1.trained_on = (x.level_models level).trained_on ∧
    ((x.fillLevelModel level entered idle).2 = true → entered = true ∧ idle = true ∧
      x.current level ≠ [] ∧ (x.fillLevelModel level entered idle).1.data.string_keys =
        (x.level_models level).data.string_keys ++ boundaryKeys (x.current level)) := by
  cases entered with
  | false => exact ⟨rfl, rfl, fun h => absurd h Bool.false_ne_true⟩
  | true =>
    by_cases hne : x.current level = []
    · simp [fillLevelModel, fillLevel, hne]
    · simp [fillLevelModel, fillLevel, hne]

variable {x x' : Session} {level cost : ℕ}

theorem Session.levelLearn_frame {entered idle : Bool}
    (h : x.levelLearn level entered idle awaiting cost = some x') :
    ∃ level_models, x' = { x with level_models := level_models } := by
  by_cases hlevel : level < kNumLevels
  · rw [levelLearn, if_pos hlevel] at h
    obtain ⟨m, -, rfl⟩ := Option.map_eq_some_iff.1 h
    exact ⟨_, rfl⟩
  · rw [levelLearn, if_neg hlevel] at h
    cases h

variable {d : Disk} {number : ℕ}

theorem Session.fileLearn_frame (h : x.fileLearn d number level awaiting cost = some x') :
    number < x.next_file_number ∧ ∃ m, x' = { x with
      file_models := update x.file_models number (some m) } := by
  rw [fileLearn] at h
  split_ifs at h with hnumber
  simp only at h
  split at h
  · obtain rfl := Option.some.inj h
    exact ⟨hnumber, _, rfl⟩
  · obtain ⟨m, -, rfl⟩ := Option.map_eq_some_iff.1 h
    exact ⟨hnumber, _, rfl⟩

theorem storeStep_fileLearn {s' : StoreState}
    (h : storeStep ⟨d, some x⟩ (.fileLearn number level awaiting cost) = some s') :
    ∃ x', x.fileLearn d number level awaiting cost = some x' ∧ s' = ⟨d, some x'⟩ := by
  obtain ⟨x', hx', rfl⟩ := Option.map_eq_some_iff.1 h
  exact ⟨x', hx', rfl⟩

/-! ### Files -/

variable {v : Version Bytes} {n : ℕ}

theorem isLive_iff :
    isLive v n = true ↔ ∃ level < kNumLevels, ∃ f ∈ v level, f.number = n := by
  simp only [isLive, any_eq_true, mem_range, decide_eq_true_eq]

theorem isLive_applyEdit {edit : VersionEdit Bytes}
    (h : isLive (applyEdit v edit) n = true) :
    isLive v n = true ∨ ∃ p ∈ edit.new_files, p.2.number = n := by
  obtain ⟨level, hlevel, f, hf, rfl⟩ := isLive_iff.1 h
  rcases (mem_applyEdit.1 hf).1 with hold | hnew
  · exact Or.inl (isLive_iff.2 ⟨level, hlevel, f, hold, rfl⟩)
  · exact Or.inr ⟨(level, f), VersionEdit.mem_addedFiles hnew, rfl⟩

/-- **Recovered tables are new files**; files with older numbers are not touched. -/
theorem recoverTables_spec {recovered : List RecoveredTable} {next next' : ℕ}
    {tables tables' : ℕ → Option TableBlocks}
    (h : recoverTables recovered next tables = some (next', tables')) :
    next ≤ next' ∧ (∀ n < next, tables' n = tables n) ∧
      (∀ n, (tables n).isSome → (tables' n).isSome) ∧
      ∀ r ∈ recovered, next ≤ r.file.number ∧ r.file.number < next' ∧
        (tables' r.file.number).isSome := by
  induction recovered generalizing next tables with
  | nil =>
    simp only [recoverTables, Option.some.injEq, Prod.mk.injEq] at h
    obtain ⟨rfl, rfl⟩ := h
    exact ⟨le_rfl, fun _ _ => rfl, fun _ h => h, fun _ hr => absurd hr not_mem_nil⟩
  | cons r rest ih =>
    rw [recoverTables] at h
    split_ifs at h with hr
    obtain ⟨hle, hold, hkeep, hnew⟩ := ih h
    have hupdate : ∀ n, (tables n).isSome →
        (update tables r.file.number (some r.blocks) n).isSome := by
      intro n hn
      by_cases he : n = r.file.number
      · rw [he, update_self, Option.isSome_some]
      · rwa [update_of_ne he]
    refine ⟨by omega, fun n hn => ?_, fun n hn => hkeep n (hupdate n hn), fun q hq => ?_⟩
    · rw [hold n (by omega), update_of_ne (by omega)]
    · rcases mem_cons.1 hq with rfl | hq
      · refine ⟨by omega, by omega, hkeep _ ?_⟩
        rw [update_self, Option.isSome_some]
      · obtain ⟨h1, h2, h3⟩ := hnew q hq
        exact ⟨by omega, h2, h3⟩

end Bourbon
