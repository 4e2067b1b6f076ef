import Bourbon.Db.Durability
import Bourbon.Db.LogFiles

/-!
# RepairDB

`RepairDB` makes a new manifest for the files of a directory.  Every log is converted to a table
file, every table is scanned for its metadata, and all tables are added at level 0.

* `repairDB` : the repairer, on the names that `GetChildren` lists and the files of the directory;
* `repairedFiles` : the table files afterwards, with their numbers;
* `repairDB_eq` : what the repair leaves, if logs and tables are intact;
* `openDB_repaired` : `DB::Open` then finds a version that has these files at level 0.

Files that cannot be read to the end (`RepairTable`) are not modelled.
-/

namespace Bourbon

open List Function

/-! ### The repairer -/

/-- What `ParseFileName` tells apart. -/
inductive FileType where
  | kLogFile
  | kDBLockFile
  | kTableFile
  | kDescriptorFile
  | kCurrentFile
  | kTempFile
  | kInfoLogFile
  deriving DecidableEq

/-- The names that `GetChildren` lists, in its order, as `ParseFileName` reads them. -/
abbrev Children := List (Option (FileType × ℕ))

/-- `Repairer::TableInfo`. -/
structure TableInfo where
  file : FileMetaData Bytes
  max_sequence : ℕ

/-- The members of `Repairer`. -/
structure Repairer where
  table_numbers : List ℕ
  logs : List ℕ
  next_file_number : ℕ
  /-- The table files of the directory. -/
  files : ℕ → Option (List (Entry Bytes Bytes))

/-- One round of the loop over the records of a log.  Short records are skipped, and the status of
`InsertInto` is ignored. -/
def recordEntries (record : Bytes) : List (Entry Bytes Bytes) :=
  if h : record.length < kHeader then []
  else WriteBatch.insertInto ⟨record, Nat.le_of_not_lt h⟩ |>.2

/-- The loop of `ScanTable` over the entries.  A table without entries has no keys to encode. -/
def scanTable (o : DBOptions Bytes Bytes) (number : ℕ) (entries : List (Entry Bytes Bytes)) :
    Option TableInfo :=
  entries.foldl (fun t e => some <| match t with
    | none => ⟨⟨number, o.file_size entries, e.1, e.1⟩, max 0 e.1.sequence⟩
    | some t => ⟨{ t.file with largest := e.1 }, max t.max_sequence e.1.sequence⟩) none

/-- The record of `WriteDescriptor`. -/
def writeDescriptor (next_file_number : ℕ) (tables : List TableInfo) : ManifestRecord Bytes :=
  { edit := ⟨[], tables.map fun t => (0, t.file)⟩
    log_number := some 0
    prev_log_number := none
    next_file_number := some next_file_number
    last_sequence := some (tables.foldl (fun m t => max m t.max_sequence) 0)
    compact_pointers := [] }

namespace Repairer

/-- One name of `FindFiles`. -/
def findFile (r : Repairer) : Option (FileType × ℕ) → Repairer
  | none => r
  | some (type, number) =>
    if type = .kDescriptorFile then r
    else
      let r := if r.next_file_number < number + 1 then
        { r with next_file_number := number + 1 } else r
      if type = .kLogFile then { r with logs := r.logs ++ [number] }
      else if type = .kTableFile then { r with table_numbers := r.table_numbers ++ [number] }
      else r

/-- `FindFiles`. -/
def findFiles (children : Children) (files : ℕ → Option (List (Entry Bytes Bytes))) :
    Except Status Repairer :=
  if children = [] then .error (.ioError "repair found no files")
  else .ok (children.foldl findFile ⟨[], [], 1, files⟩)

/-- `ConvertLogToTable`, with the contents of the log if it can be opened. -/
def convertLogToTable (crc : Bytes → UInt32) (o : DBOptions Bytes Bytes) (r : Repairer) :
    Option Bytes → Option Repairer
  | none => some r
  | some log =>
    (Log.readFile crc false log).map fun p =>
      let mem := memTable (p.1.flatMap recordEntries)
      let next := { r with next_file_number := r.next_file_number + 1 }
      match o.fileMetaData r.next_file_number mem with
      -- `BuildTable` makes no file
      | none => next
      | some file =>
        if 0 < file.file_size then
          { next with
            files := update r.files file.number (some mem)
            table_numbers := r.table_numbers ++ [file.number] }
        else next

/-- `ConvertLogFilesToTables`. -/
def convertLogFilesToTables (crc : Bytes → UInt32) (o : DBOptions Bytes Bytes)
    (logs : List (ℕ × Bytes)) : List ℕ → Repairer → Option Repairer
  | [], r => some r
  | number :: numbers, r =>
    (r.convertLogToTable crc o (logs.lookup number)).bind fun r =>
      r.convertLogFilesToTables crc o logs numbers

/-- `ExtractMetaData`.  Files that do not exist are dropped. -/
def extractMetaData (o : DBOptions Bytes Bytes) (r : Repairer) : Option (List TableInfo) :=
  (r.table_numbers.filterMap fun number =>
    (r.files number).map fun entries => (number, entries)).mapM fun p => scanTable o p.1 p.2

end Repairer

/-- `RepairDB`.  Logs and manifests are moved out of the directory. -/
def repairDB (crc : Bytes → UInt32) (o : DBOptions Bytes Bytes) (children : Children)
    (dir : Directory) : Option (Except Status Directory) :=
  match Repairer.findFiles children dir.tables with
  | .error status => some (.error status)
  | .ok found =>
    (found.convertLogFilesToTables crc o dir.logs found.logs).bind fun r =>
      (r.extractMetaData o).map fun tables =>
        .ok
          { manifest := [writeDescriptor r.next_file_number tables]
            logs := dir.logs.filter fun p => !found.logs.contains p.1
            tables := r.files
            others := 1 :: children.filterMap fun child => child.bind fun p =>
              if p.1 ∈ [.kLogFile, .kTableFile, .kDescriptorFile] then none else some p.2 }

/-! ### The files afterwards -/

/-- The numbers of the files of one type, in the order of the listing. -/
def Children.numbers (children : Children) (type : FileType) : List ℕ :=
  children.filterMap fun child => child.bind fun p => if p.1 = type then some p.2 else none

/-- The first number that a repair gives out. -/
def Children.nextFileNumber (children : Children) : ℕ :=
  children.foldl (fun next child => match child with
    | none => next
    | some p => if p.1 = .kDescriptorFile then next else max next (p.2 + 1)) 1

/-- The tables made of logs with these entries, numbered from `number` on.  A log without entries
takes a number, too. -/
def convertedFiles : ℕ → List (List (Entry Bytes Bytes)) → List (ℕ × List (Entry Bytes Bytes))
  | _, [] => []
  | number, mem :: mems =>
    if mem = [] then convertedFiles (number + 1) mems
    else (number, mem) :: convertedFiles (number + 1) mems

/-- All table files after a repair: those of the directory and those made of logs. -/
def repairedFiles (children : Children) (tables : ℕ → Option (List (Entry Bytes Bytes)))
    (mems : List (List (Entry Bytes Bytes))) : List (ℕ × List (Entry Bytes Bytes)) :=
  ((children.numbers .kTableFile).filterMap fun number =>
      (tables number).map fun entries => (number, entries)) ++
    convertedFiles children.nextFileNumber mems

/-- The listing names the tables and the logs of the directory. -/
structure Directory.Lists (dir : Directory) (children : Children) : Prop where
  table : ∀ number, some (.kTableFile, number) ∈ children ↔ (dir.tables number).isSome = true
  log : ∀ number, some (.kLogFile, number) ∈ children ↔ ∃ log, (number, log) ∈ dir.logs
  once : (children.filterMap id).Nodup

/-- Tables with entries are not empty files. -/
def DBOptions.TablesHaveSize (o : DBOptions Bytes Bytes) : Prop :=
  ∀ entries, entries ≠ [] → 0 < o.file_size entries

/-- A log that holds the entries of a memtable. -/
def HoldsMemTable (crc : Bytes → UInt32) (log : Bytes) (mem : List (Entry Bytes Bytes)) : Prop :=
  ∃ bs : List WriteBatch, log = Log.recordsBytes crc 0 (bs.map WriteBatch.rep) ∧
    mem = memTable (batchesEntries bs)

/-! ### Steps of the repair -/

section

variable {crc : Bytes → UInt32} {o : DBOptions Bytes Bytes} {children : Children}
  {entries mem : List (Entry Bytes Bytes)} {number : ℕ}

theorem Children.mem_numbers {type : FileType} :
    number ∈ children.numbers type ↔ some (type, number) ∈ children := by
  simp only [numbers, mem_filterMap, Option.bind_eq_some_iff]
  constructor
  · rintro ⟨child, hchild, p, rfl, hp⟩
    split_ifs at hp with htype
    obtain rfl := Option.some.inj hp
    rw [← htype]
    exact hchild
  · exact fun h => ⟨_, h, _, rfl, if_pos rfl⟩

theorem Children.nodup_numbers (h : (children.filterMap id).Nodup) (type : FileType) :
    (children.numbers type).Nodup := by
  have heq : children.numbers type = (children.filterMap id).filterMap
      fun p => if p.1 = type then some p.2 else none := by
    rw [filterMap_filterMap]
    rfl
  rw [heq]
  refine h.filterMap fun p q number hp hq => ?_
  simp only [Option.mem_def] at hp hq
  split_ifs at hp hq with hp' hq'
  exact Prod.ext (hp'.trans hq'.symm) ((Option.some.inj hp).trans (Option.some.inj hq).symm)

theorem Repairer.foldl_findFile (r : Repairer) (children : Children) :
    children.foldl findFile r =
      { r with
        table_numbers := r.table_numbers ++ children.numbers .kTableFile
        logs := r.logs ++ children.numbers .kLogFile
        next_file_number := children.foldl (fun next child => match child with
          | none => next
          | some p => if p.1 = .kDescriptorFile then next else max next (p.2 + 1))
          r.next_file_number } := by
  induction children generalizing r with
  | nil => simp [Children.numbers]
  | cons child children ih =>
    rw [foldl_cons, ih, foldl_cons]
    cases child with
    | none => rfl
    | some p =>
      obtain ⟨type, number⟩ := p
      have hmax : ∀ next : ℕ, (if next < number + 1 then number + 1 else next) =
          max next (number + 1) := fun next => by
        split_ifs <;> omega
      cases type <;>
        simp [findFile, Children.numbers, ← hmax, apply_ite Repairer.next_file_number,
          apply_ite Repairer.logs, apply_ite Repairer.table_numbers, apply_ite Repairer.files]

theorem Children.lt_nextFileNumber {type : FileType} (h : some (type, number) ∈ children)
    (htype : type ≠ .kDescriptorFile) : number < children.nextFileNumber := by
  -- the number never decreases
  have hmono : ∀ (children : Children) (next : ℕ),
      next ≤ children.foldl (fun next child => match child with
        | none => next
        | some p => if p.1 = .kDescriptorFile then next else max next (p.2 + 1)) next := by
    intro children
    induction children with
    | nil => exact fun _ => le_rfl
    | cons child children ih =>
      intro next
      refine le_trans ?_ (ih _)
      cases child with
      | none => exact le_rfl
      | some p =>
        dsimp only
        split_ifs
        · exact le_rfl
        · exact le_max_left _ _
  obtain ⟨before, after, rfl⟩ := append_of_mem h
  rw [nextFileNumber, foldl_append, foldl_cons]
  refine lt_of_lt_of_le ?_ (hmono after _)
  dsimp only
  rw [if_neg htype]
  exact lt_of_lt_of_le (Nat.lt_succ_self number) (le_max_right _ _)

/-- **A scan finds the metadata and the largest sequence number of a table.** -/
theorem scanTable_eq (o : DBOptions Bytes Bytes) (number : ℕ) (hne : entries ≠ []) :
    ∃ file, o.fileMetaData number entries = some file ∧ scanTable o number entries =
      some ⟨file, entries.foldl (fun m e => max m e.1.sequence) 0⟩ := by
  obtain ⟨e, rest, rfl⟩ := exists_cons_of_ne_nil hne
  refine ⟨_, rfl, ?_⟩
  rw [scanTable, foldl_cons, foldl_cons]
  generalize o.file_size (e :: rest) = size
  generalize max 0 e.1.sequence = m
  -- the smallest key stays, the largest key is the last one
  have hloop : ∀ (last : Entry Bytes Bytes) (m : ℕ), rest.foldl (fun t x => some <| match t with
      | none => ⟨⟨number, size, x.1, x.1⟩, max 0 x.1.sequence⟩
      | some t => ⟨{ t.file with largest := x.1 }, max t.max_sequence x.1.sequence⟩)
      (some ⟨⟨number, size, e.1, last.1⟩, m⟩) =
      some (⟨⟨number, size, e.1, (rest.getLastD last).1⟩,
        rest.foldl (fun m x => max m x.1.sequence) m⟩ : TableInfo) := by
    induction rest with
    | nil => exact fun _ _ => rfl
    | cons x rest ih =>
      intro last m
      rw [foldl_cons, foldl_cons, getLastD_cons]
      exact ih (cons_ne_nil _ _) x _
  exact hloop e m

theorem recordEntries_rep (b : WriteBatch) : recordEntries b.rep = b.insertInto.2 := by
  rw [recordEntries, dif_neg (not_lt.2 b.header)]

theorem readFile_recordsBytes (slices : List Bytes) (checksum : Bool) :
    ∃ r, Log.readFile crc checksum (Log.recordsBytes crc 0 slices) = some (slices, r) := by
  obtain ⟨r, hread, -⟩ : ∃ r, Log.readFile crc checksum ((Log.recordsBytes crc 0 slices).take
      (Log.recordsBytes crc 0 slices).length) = some (Log.completeRecords crc id 0
        (Log.recordsBytes crc 0 slices).length slices, r) ∧ r.reports = [] :=
    Log.readFile_take slices _ checksum
  rw [take_length] at hread
  have hall : Log.completeRecords crc id 0 (Log.recordsBytes crc 0 slices).length slices = slices :=
    Log.completeRecords_self id 0 (by rw [map_id])
  rw [hall] at hread
  exact ⟨r, hread⟩

namespace Repairer

/-- **A log becomes a table file**, unless it has no entries. -/
theorem convertLogToTable_eq (ho : o.TablesHaveSize) (r : Repairer) {log : Bytes}
    (hlog : HoldsMemTable crc log mem) :
    r.convertLogToTable crc o (some log) = some
      (if mem = [] then { r with next_file_number := r.next_file_number + 1 }
      else { r with
        next_file_number := r.next_file_number + 1
        files := update r.files r.next_file_number (some mem)
        table_numbers := r.table_numbers ++ [r.next_file_number] }) := by
  obtain ⟨bs, rfl, hmem⟩ := hlog
  obtain ⟨reader, hread⟩ : ∃ r, Log.readFile crc false (Log.recordsBytes crc 0
      (bs.map WriteBatch.rep)) = some (bs.map WriteBatch.rep, r) :=
    readFile_recordsBytes (bs.map WriteBatch.rep) false
  have hentries : (bs.map WriteBatch.rep).flatMap recordEntries = batchesEntries bs := by
    rw [flatMap_map, batchesEntries]
    exact flatMap_congr fun b _ => recordEntries_rep b
  simp only [convertLogToTable, hread, Option.map_some, hentries, ← hmem]
  split_ifs with hnil
  · rw [hnil]
    rfl
  · obtain ⟨file, hfile⟩ := fileMetaData_isSome o r.next_file_number hnil
    have hnumber := fileMetaData_number hfile
    have hsize : 0 < file.file_size := by
      obtain ⟨e, rest, rfl⟩ := exists_cons_of_ne_nil hnil
      rw [← Option.some.inj hfile]
      exact ho _ (cons_ne_nil e rest)
    rw [hfile]
    simp only [if_pos hsize, hnumber]

theorem convertLogFilesToTables_eq (crc : Bytes → UInt32) (ho : o.TablesHaveSize)
    (logs : List (ℕ × Bytes)) (mems : ℕ → List (Entry Bytes Bytes)) (numbers : List ℕ)
    (r : Repairer) (hlogs : ∀ number ∈ numbers, ∃ log, logs.lookup number = some log ∧
      HoldsMemTable crc log (mems number)) :
    r.convertLogFilesToTables crc o logs numbers = some
      { r with
        next_file_number := r.next_file_number + numbers.length
        files := (convertedFiles r.next_file_number (numbers.map mems)).foldl
          (fun files p => update files p.1 (some p.2)) r.files
        table_numbers := r.table_numbers ++
          (convertedFiles r.next_file_number (numbers.map mems)).map Prod.fst } := by
  induction numbers generalizing r with
  | nil => simp [convertLogFilesToTables, convertedFiles]
  | cons number numbers ih =>
    obtain ⟨log, hlookup, hholds⟩ := hlogs number mem_cons_self
    have hrest := fun r => ih r fun n hn => hlogs n (mem_cons_of_mem number hn)
    rw [convertLogFilesToTables, hlookup, r.convertLogToTable_eq ho hholds, Option.bind_some, hrest]
    by_cases hnil : mems number = []
    · simp only [if_pos hnil, map_cons, convertedFiles, length_cons, Nat.add_assoc,
        Nat.add_comm 1]
    · simp only [if_neg hnil, map_cons, convertedFiles, length_cons, Nat.add_assoc,
        Nat.add_comm 1, foldl_cons, append_assoc, singleton_append]

end Repairer

/-! ### The whole repair -/

theorem convertedFiles_spec (next : ℕ) (mems : List (List (Entry Bytes Bytes))) :
    ((convertedFiles next mems).map Prod.fst).Pairwise (· < ·) ∧
      ∀ p ∈ convertedFiles next mems, next ≤ p.1 ∧ p.1 < next + mems.length ∧ p.2 ≠ [] ∧
        p.2 ∈ mems := by
  induction mems generalizing next with
  | nil => exact ⟨List.Pairwise.nil, fun p hp => (by cases hp)⟩
  | cons mem mems ih =>
    obtain ⟨hsorted, hmem⟩ := ih (next + 1)
    rw [convertedFiles]
    have hrest : ∀ p ∈ convertedFiles (next + 1) mems, next < p.1 ∧
        p.1 < next + (mem :: mems).length ∧ p.2 ≠ [] ∧ p.2 ∈ mem :: mems := by
      intro p hp
      obtain ⟨hle, hlt, hne, hin⟩ := hmem p hp
      refine ⟨hle, ?_, hne, mem_cons_of_mem mem hin⟩
      rw [length_cons]
      omega
    split_ifs with hnil
    · refine ⟨hsorted, fun p hp => ?_⟩
      obtain ⟨hlt, hrest⟩ := hrest p hp
      exact ⟨hlt.le, hrest⟩
    · refine ⟨?_, fun p hp => ?_⟩
      · rw [map_cons, pairwise_cons]
        refine ⟨fun number hnumber => ?_, hsorted⟩
        obtain ⟨p, hp, rfl⟩ := mem_map.1 hnumber
        exact (hrest p hp).1
      · rcases mem_cons.1 hp with rfl | hp
        · refine ⟨le_rfl, ?_, hnil, mem_cons_self⟩
          rw [length_cons]
          omega
        · obtain ⟨hlt, hrest⟩ := hrest p hp
          exact ⟨hlt.le, hrest⟩

variable {dir : Directory} {mems : List (List (Entry Bytes Bytes))}

theorem mem_repairedFiles (hlist : dir.Lists children) {p : ℕ × List (Entry Bytes Bytes)} :
    p ∈ repairedFiles children dir.tables mems ↔ dir.tables p.1 = some p.2 ∨
      p ∈ convertedFiles children.nextFileNumber mems := by
  rw [repairedFiles, mem_append]
  refine or_congr_left ?_
  simp only [mem_filterMap, Option.map_eq_some_iff, Children.mem_numbers, hlist.table]
  constructor
  · rintro ⟨number, -, entries, hentries, rfl⟩
    exact hentries
  · intro h
    exact ⟨p.1, by rw [h]; rfl, p.2, h, rfl⟩

theorem Directory.Lists.lt_next (hlist : dir.Lists children)
    (h : dir.tables number = some entries) :
    number < children.nextFileNumber :=
  Children.lt_nextFileNumber ((hlist.table number).2 (by rw [h]; rfl)) (by decide)

theorem nodup_repairedFiles (hlist : dir.Lists children) :
    ((repairedFiles children dir.tables mems).map Prod.fst).Nodup := by
  obtain ⟨hsorted, hmem⟩ := convertedFiles_spec children.nextFileNumber mems
  rw [repairedFiles, map_append, nodup_append]
  refine ⟨?_, hsorted.imp fun h => h.ne, ?_⟩
  · rw [map_filterMap]
    refine (Children.nodup_numbers hlist.once .kTableFile).filterMap fun a b number ha hb => ?_
    simp only [Option.map_map, Option.mem_def, Option.map_eq_some_iff, comp_apply] at ha hb
    obtain ⟨-, -, rfl⟩ := ha
    obtain ⟨-, -, rfl⟩ := hb
    rfl
  · rintro a ha b hb rfl
    obtain ⟨p, hp, rfl⟩ := mem_map.1 ha
    obtain ⟨q, hq, heq⟩ := mem_map.1 hb
    obtain ⟨number, -, hp⟩ := mem_filterMap.1 hp
    obtain ⟨entries, hentries, rfl⟩ := Option.map_eq_some_iff.1 hp
    have := hlist.lt_next hentries
    have := (hmem q hq).1
    simp only at heq
    omega

theorem foldl_update_eq (files : ℕ → Option (List (Entry Bytes Bytes)))
    {added : List (ℕ × List (Entry Bytes Bytes))} (hadded : (added.map Prod.fst).Nodup) (number : ℕ)
    (entries : List (Entry Bytes Bytes)) :
    added.foldl (fun (files : ℕ → Option (List (Entry Bytes Bytes))) p =>
        update files p.1 (some p.2)) files number = some entries ↔
      (number, entries) ∈ added ∨ number ∉ added.map Prod.fst ∧ files number = some entries := by
  induction added generalizing files with
  | nil => simp
  | cons p added ih =>
    rw [map_cons, nodup_cons] at hadded
    rw [foldl_cons, ih _ hadded.2, mem_cons, map_cons, mem_cons]
    by_cases hnumber : number = p.1
    · subst hnumber
      have hnot : ∀ entries, (p.1, entries) ∉ added := fun entries h =>
        hadded.1 (mem_map.2 ⟨_, h, rfl⟩)
      simp only [hnot, hadded.1, update_self, Prod.ext_iff, true_and, not_false_eq_true,
        not_true_eq_false, false_and, or_false, false_or, Option.some.injEq, eq_comm]
    · simp [Prod.ext_iff, hnumber]

theorem mapM_eq_some {α β : Type} {f : α → Option β} {l : List α} (h : ∀ a ∈ l, ∃ b, f a = some b) :
    ∃ bs, l.mapM f = some bs ∧ l.map f = bs.map some := by
  induction l with
  | nil => exact ⟨[], rfl, rfl⟩
  | cons a l ih =>
    obtain ⟨b, hb⟩ := h a mem_cons_self
    obtain ⟨bs, hbs, hall⟩ := ih fun x hx => h x (mem_cons_of_mem a hx)
    refine ⟨b :: bs, ?_, ?_⟩
    · rw [mapM_cons, hb, hbs]
      rfl
    · rw [map_cons, map_cons, hb, hall]

/-- **What a repair leaves** of a directory with intact tables and logs. -/
theorem repairDB_eq (crc : Bytes → UInt32) (ho : o.TablesHaveSize) (hlist : dir.Lists children)
    (hne : dir.logs ≠ []) {mems : ℕ → List (Entry Bytes Bytes)}
    (hlogs : ∀ number log, (number, log) ∈ dir.logs → dir.logs.lookup number = some log ∧
      HoldsMemTable crc log (mems number))
    (htables : ∀ number entries, dir.tables number = some entries → entries ≠ []) :
    ∃ dir' infos, repairDB crc o children dir = some (.ok dir') ∧
      dir'.manifest = [writeDescriptor (children.nextFileNumber +
        (children.numbers .kLogFile).length) infos] ∧
      dir'.logs = [] ∧
      (∀ number entries, dir'.tables number = some entries ↔ (number, entries) ∈
        repairedFiles children dir.tables ((children.numbers .kLogFile).map mems)) ∧
      (repairedFiles children dir.tables ((children.numbers .kLogFile).map mems)).map
        (fun p => scanTable o p.1 p.2) = infos.map some := by
  have hchildren : children ≠ [] := by
    obtain ⟨p, hp⟩ := exists_mem_of_ne_nil _ hne
    exact ne_nil_of_mem ((hlist.log p.1).2 ⟨p.2, hp⟩)
  have hfind : Repairer.findFiles children dir.tables = .ok
      ⟨children.numbers .kTableFile, children.numbers .kLogFile, children.nextFileNumber,
        dir.tables⟩ := by
    rw [Repairer.findFiles, if_neg hchildren, Repairer.foldl_findFile]
    rfl
  have hconvert := Repairer.convertLogFilesToTables_eq crc ho dir.logs mems
    (children.numbers .kLogFile)
    ⟨children.numbers .kTableFile, children.numbers .kLogFile, children.nextFileNumber, dir.tables⟩
    fun number hnumber => by
      obtain ⟨log, hlog⟩ := (hlist.log number).1 (Children.mem_numbers.1 hnumber)
      exact ⟨log, hlogs number log hlog⟩
  generalize hmemtables : (children.numbers .kLogFile).map mems = memtables at hconvert ⊢
  obtain ⟨hsorted, hmem⟩ := convertedFiles_spec children.nextFileNumber memtables
  have hfiles := foldl_update_eq dir.tables (hsorted.imp fun h => h.ne)
  -- the new numbers are not among the old ones
  have hfresh : ∀ number entries, dir.tables number = some entries →
      number ∉ (convertedFiles children.nextFileNumber memtables).map Prod.fst := by
    intro number entries hentries hin
    obtain ⟨p, hp, rfl⟩ := mem_map.1 hin
    exact absurd (hlist.lt_next hentries) (not_lt.2 (hmem p hp).1)
  generalize hnew : (convertedFiles children.nextFileNumber memtables).foldl
    (fun (files : ℕ → Option (List (Entry Bytes Bytes))) p =>
      update files p.1 (some p.2)) dir.tables = files at hconvert hfiles
  have hall : ∀ number entries, files number = some entries ↔
      (number, entries) ∈ repairedFiles children dir.tables memtables := by
    intro number entries
    rw [hfiles, mem_repairedFiles hlist, or_comm]
    exact or_congr_left ⟨And.right, fun h => ⟨hfresh number entries h, h⟩⟩
  have hscan : ((children.numbers .kTableFile ++
      (convertedFiles children.nextFileNumber memtables).map Prod.fst).filterMap fun number =>
        (files number).map fun entries => (number, entries)) =
      repairedFiles children dir.tables memtables := by
    rw [repairedFiles, filterMap_append, filterMap_map]
    congr 1
    · refine filterMap_congr fun number hnumber => ?_
      obtain ⟨entries, hentries⟩ := Option.isSome_iff_exists.1
        ((hlist.table number).1 (Children.mem_numbers.1 hnumber))
      rw [hentries, (hfiles number entries).2 (Or.inr ⟨hfresh number entries hentries, hentries⟩)]
    · refine Eq.trans (filterMap_congr fun p hp => ?_) (filterMap_some ..)
      rw [comp_apply, (hfiles p.1 p.2).2 (Or.inl hp)]
      rfl
  obtain ⟨infos, hinfos, hscanned⟩ := mapM_eq_some
    (f := fun p : ℕ × List (Entry Bytes Bytes) => scanTable o p.1 p.2)
    (l := repairedFiles children dir.tables memtables) fun p hp => by
      have hne : p.2 ≠ [] := by
        rcases (mem_repairedFiles hlist).1 hp with hold | hconverted
        · exact htables p.1 p.2 hold
        · exact (hmem p hconverted).2.2.1
      obtain ⟨file, -, heq⟩ := scanTable_eq o p.1 hne
      exact ⟨_, heq⟩
  have hlogs' : dir.logs.filter (fun p => !(children.numbers .kLogFile).contains p.1) = [] := by
    refine filter_eq_nil_iff.2 fun p hp => ?_
    have := Children.mem_numbers.2 ((hlist.log p.1).2 ⟨p.2, hp⟩)
    simpa using this
  have hrepair : repairDB crc o children dir = some (.ok
      { manifest := [writeDescriptor (children.nextFileNumber +
          (children.numbers .kLogFile).length) infos]
        logs := dir.logs.filter fun p => !(children.numbers .kLogFile).contains p.1
        tables := files
        others := 1 :: children.filterMap fun child => child.bind fun p =>
          if p.1 ∈ [.kLogFile, .kTableFile, .kDescriptorFile] then none else some p.2 }) := by
    rw [repairDB, hfind]
    simp only [hconvert, Option.bind_some, Repairer.extractMetaData, hscan, hinfos, Option.map_some]
  exact ⟨_, infos, hrepair, rfl, hlogs', hall, hscanned⟩

/-! ### Opening the repaired directory -/

/-- A database that has just the files, all of them at level 0. -/
structure AtLevelZero (db : DBState Bytes Bytes) (files : List (ℕ × List (Entry Bytes Bytes))) :
    Prop where
  mem : db.mem = []
  imm : db.imm = none
  deeper : ∀ level, level ≠ 0 → db.current level = []
  table : ∀ f ∈ db.current 0, IsTableOf f (db.tables f.number)
  file : ∀ f ∈ db.current 0, (f.number, db.tables f.number) ∈ files
  complete : ∀ p ∈ files, ∃ f ∈ db.current 0, f.number = p.1 ∧ db.tables f.number = p.2
  bounded : ∀ p ∈ files, ∀ e ∈ p.2, e.1.sequence ≤ db.last_sequence
  least : ∀ n, (∀ p ∈ files, ∀ e ∈ p.2, e.1.sequence ≤ n) → db.last_sequence ≤ n

theorem foldl_max_le {α : Type*} {f : α → ℕ} {l : List α} {m n : ℕ} :
    l.foldl (fun m a => max m (f a)) m ≤ n ↔ m ≤ n ∧ ∀ a ∈ l, f a ≤ n := by
  induction l generalizing m with
  | nil => simp
  | cons a l ih => simp [ih, and_assoc]

/-- The result of scanning intact files with different numbers. -/
structure Scanned (o : DBOptions Bytes Bytes) (files : List (ℕ × List (Entry Bytes Bytes)))
    (infos : List TableInfo) : Prop where
  scan : files.map (fun p => scanTable o p.1 p.2) = infos.map some
  once : (files.map Prod.fst).Nodup
  intact : ∀ p ∈ files, p.2 ≠ [] ∧ p.2.Pairwise fun a b => a.1 < b.1

namespace Scanned

variable {files : List (ℕ × List (Entry Bytes Bytes))} {infos : List TableInfo}

theorem mem_iff (h : Scanned o files infos) {info : TableInfo} :
    info ∈ infos ↔ ∃ p ∈ files, scanTable o p.1 p.2 = some info := by
  rw [← mem_map_of_injective (Option.some_injective TableInfo), ← h.scan, mem_map]

theorem info (h : Scanned o files infos) {p : ℕ × List (Entry Bytes Bytes)} (hp : p ∈ files) :
    ∃ info ∈ infos, scanTable o p.1 p.2 = some info ∧ info.file.number = p.1 ∧
      IsTableOf info.file p.2 ∧
        info.max_sequence = p.2.foldl (fun m e => max m e.1.sequence) 0 := by
  obtain ⟨file, hfile, heq⟩ := scanTable_eq o p.1 (h.intact p hp).1
  obtain ⟨hnumber, htable⟩ := fileMetaData_spec hfile (h.intact p hp).2
  exact ⟨_, h.mem_iff.2 ⟨p, hp, heq⟩, heq, hnumber, htable, rfl⟩

theorem file (h : Scanned o files infos) {info : TableInfo} (hinfo : info ∈ infos) :
    ∃ p ∈ files, scanTable o p.1 p.2 = some info ∧ info.file.number = p.1 ∧
      IsTableOf info.file p.2 := by
  obtain ⟨p, hp, hscan⟩ := h.mem_iff.1 hinfo
  obtain ⟨info', -, hscan', hnumber, htable, -⟩ := h.info hp
  obtain rfl := Option.some.inj (hscan.symm.trans hscan')
  exact ⟨p, hp, hscan, hnumber, htable⟩

/-- **The descriptor has every file at level 0.** -/
theorem mem_version (h : Scanned o files infos) (next : ℕ) (f : FileMetaData Bytes) :
    f ∈ applyEdit (fun _ => []) (writeDescriptor next infos).edit 0 ↔
      ∃ info ∈ infos, info.file = f := by
  have hnew : ∀ g, (0, g) ∈ (writeDescriptor next infos).edit.new_files ↔
      ∃ info ∈ infos, info.file = g := by
    intro g
    simp [writeDescriptor]
  have hadded : f ∈ (writeDescriptor next infos).edit.addedFiles 0 ↔
      (0, f) ∈ (writeDescriptor next infos).edit.new_files := by
    refine ⟨VersionEdit.mem_addedFiles, fun hf => (VersionEdit.mem_addedFiles_iff
      fun g hg _ hnumber => ?_).2 hf⟩
    obtain ⟨info, hinfo, rfl⟩ := (hnew f).1 hf
    obtain ⟨info', hinfo', rfl⟩ := (hnew g).1 hg
    obtain ⟨p, hp, hscan, hpnumber, -⟩ := h.file hinfo
    obtain ⟨q, hq, hscan', hqnumber, -⟩ := h.file hinfo'
    have hpq : p = q := inj_on_of_nodup_map h.once hp hq
      (hpnumber.symm.trans (hnumber.symm.trans hqnumber))
    subst hpq
    rw [Option.some.inj (hscan'.symm.trans hscan)]
  rw [mem_applyEdit, hadded, hnew]
  simp [VersionEdit.isDeleted, writeDescriptor]

end Scanned

theorem writeDescriptor_deeper (next : ℕ) (infos : List TableInfo) {level : ℕ}
    (hlevel : level ≠ 0) :
    applyEdit (fun _ => []) (writeDescriptor next infos).edit level = [] := by
  refine applyEdit_of_unchanged _ ?_
  simp [VersionEdit.changes, writeDescriptor, Ne.symm hlevel]

theorem openDB_writeDescriptor (crc : Bytes → UInt32) (o : DBOptions Bytes Bytes)
    (ro : RecoveryOptions) {dir : Directory} {infos : List TableInfo} {next : ℕ}
    (hmanifest : dir.manifest = [writeDescriptor next infos]) (hlogs : dir.logs = [])
    (hfiles : ∀ f ∈ applyEdit (fun _ => []) (writeDescriptor next infos).edit 0,
      (dir.tables f.number).isSome = true) :
    ∃ t, openDB crc o ro dir = some (.ok t) ∧ t.db =
      { mem := []
        imm := none
        last_sequence := max (infos.foldl (fun m t => max m t.max_sequence) 0) 0
        current := applyEdit (fun _ => []) (writeDescriptor next infos).edit
        tables := fun number => (dir.tables number).getD []
        next_file_number := next + 2
        compact_pointer := fun _ => none
        compact := none } := by
  obtain ⟨v, hv⟩ : ∃ v, v = applyEdit (fun _ => []) (writeDescriptor next infos).edit := ⟨_, rfl⟩
  rw [← hv] at hfiles ⊢
  have hsame : nextVersion v ⟨[], []⟩ = v := by
    rw [nextVersion_eq]
    funext level
    exact applyEdit_of_unchanged v rfl
  have hmissing : (((List.range kNumLevels).flatMap fun level =>
      (v level).map FileMetaData.number).dedup.filter fun number => !dir.hasFile number) = [] := by
    refine filter_eq_nil_iff.2 fun number hnumber => ?_
    rw [mem_dedup] at hnumber
    obtain ⟨level, -, hnumber⟩ := mem_flatMap.1 hnumber
    obtain ⟨f, hf, rfl⟩ := mem_map.1 hnumber
    by_cases hlevel : level = 0
    · subst hlevel
      simp [Directory.hasFile, hfiles f hf]
    · rw [hv, writeDescriptor_deeper next infos hlevel] at hf
      cases hf
  obtain ⟨last, hlast⟩ : ∃ last, last = infos.foldl (fun m t => max m t.max_sequence) 0 := ⟨_, rfl⟩
  have hrecover : recoverManifest dir.manifest = .ok
      ⟨v, next, next + 1, last, 0, 0, fun _ => none⟩ := by
    rw [hmanifest, hv, hlast, ← nextVersion_eq]
    rfl
  have hreplay : dir.logsToRecover 0 0 = [] := by
    rw [Directory.logsToRecover, hlogs]
    rfl
  have happly := LoggedDB.logAndApply_eq
    (s := LoggedDB.recovered ⟨v, next, next + 1, last, 0, 0, fun _ => none⟩ dir
      ⟨next + 1, fun number => (dir.tables number).getD [], [], 0⟩) ⟨[], []⟩ (n := next + 1)
    (Nat.zero_le _) (Nat.lt_succ_self _)
  rw [openDB, hrecover, ← hlast]
  simp only [hmissing, ne_eq, not_true_eq_false, if_false, hreplay, recoverLogs, happly]
  refine ⟨_, rfl, ?_⟩
  simp only [LoggedDB.deleteObsoleteFiles, LoggedDB.recovered, hsame]

/-- **`DB::Open` on a repaired directory** finds all files at level 0. -/
theorem openDB_repaired (crc : Bytes → UInt32) (ro : RecoveryOptions) {dir : Directory}
    {files : List (ℕ × List (Entry Bytes Bytes))} {infos : List TableInfo} {next : ℕ}
    (hmanifest : dir.manifest = [writeDescriptor next infos]) (hlogs : dir.logs = [])
    (htables : ∀ number entries, dir.tables number = some entries ↔ (number, entries) ∈ files)
    (h : Scanned o files infos) :
    ∃ t, openDB crc o ro dir = some (.ok t) ∧ AtLevelZero t.db files := by
  have hget : ∀ p ∈ files, (dir.tables p.1).getD [] = p.2 := fun p hp => by
    rw [(htables p.1 p.2).2 hp]
    rfl
  obtain ⟨t, hopen, ht⟩ := openDB_writeDescriptor crc o ro hmanifest hlogs fun f hf => by
    obtain ⟨info, hinfo, rfl⟩ := (h.mem_version next f).1 hf
    obtain ⟨p, hp, -, hnumber, -⟩ := h.file hinfo
    rw [hnumber, (htables p.1 p.2).2 hp]
    rfl
  refine ⟨t, hopen, ?_⟩
  rw [ht]
  have hfile : ∀ f ∈ applyEdit (fun _ => []) (writeDescriptor next infos).edit 0, ∃ p ∈ files,
      f.number = p.1 ∧ IsTableOf f p.2 := by
    intro f hf
    obtain ⟨info, hinfo, rfl⟩ := (h.mem_version next f).1 hf
    obtain ⟨p, hp, -, hnumber, htable⟩ := h.file hinfo
    exact ⟨p, hp, hnumber, htable⟩
  exact
    { mem := rfl
      imm := rfl
      deeper := fun level => writeDescriptor_deeper next infos
      table := fun f hf => by
        obtain ⟨p, hp, hnumber, htable⟩ := hfile f hf
        simp only [hnumber, hget p hp]
        exact htable
      file := fun f hf => by
        obtain ⟨p, hp, hnumber, -⟩ := hfile f hf
        simp only [hnumber, hget p hp]
        exact hp
      complete := fun p hp => by
        obtain ⟨info, hinfo, -, hnumber, -⟩ := h.info hp
        refine ⟨info.file, (h.mem_version next _).2 ⟨info, hinfo, rfl⟩, hnumber, ?_⟩
        simp only [hnumber, hget p hp]
      bounded := fun p hp e he => by
        obtain ⟨info, hinfo, -, -, -, hmax⟩ := h.info hp
        have hle := (foldl_max_le (f := TableInfo.max_sequence) (l := infos) (m := 0)).1 le_rfl
        have he' := (foldl_max_le (f := fun e : Entry Bytes Bytes => e.1.sequence)).1 hmax.ge
        exact (he'.2 e he).trans ((hle.2 info hinfo).trans (le_max_left _ _))
      least := fun n hn => by
        refine max_le (foldl_max_le.2 ⟨Nat.zero_le n, fun info hinfo => ?_⟩) (Nat.zero_le n)
        obtain ⟨p, hp, hscan, -⟩ := h.file hinfo
        obtain ⟨info', -, hscan', -, -, hmax⟩ := h.info hp
        obtain rfl := Option.some.inj (hscan.symm.trans hscan')
        rw [hmax]
        exact foldl_max_le.2 ⟨Nat.zero_le n, hn p hp⟩ }

end

end Bourbon
