import Bourbon.Db.Durability
import Bourbon.Db.Separation

/-!
# Closing a database with a value log

With `MOD >= 7` nothing is written to the log files, so that only the table files and the value log
survive.  `~DBImpl` flushes the memtables with `CompactMemTable(MemTable*)`, which does nothing
unless `fresh_write` is set.

* `Unflushed` : the invariant.  What the tables and some memtables stand for, with empty logs;
* `SeparatedReaches` : the states of a database over any number of sessions;
* `ClosedTo` : the directory after a close, with the table of a flush that was given up;
* `get_of_reopened_iff` : after a close `Get` returns what it returned before if and only if
  `fresh_write` is set or the memtables make no difference, and when `DB::Open` is defined.
-/

namespace Bourbon

open List Function

/-! ### The model -/

namespace LoggedDB

/-- `CompactMemTable(MemTable*)`. -/
def compactTable (o : DBOptions Bytes Bytes) (fresh_write : Bool) (s : LoggedDB)
    (table : Option (List (Entry Bytes Bytes))) : Option LoggedDB :=
  match table with
  | none => some s
  | some entries =>
    if fresh_write = false then some s
    -- `WriteLevel0Table` makes no table, and its status is ignored
    else if entries = [] then
      some { s with
        db := { s.db with next_file_number := (newFileNumber s.db.next_file_number).2 } }
    else s.flushTable o entries

/-- A flush that the background thread gives up after `WriteLevel0Table`, because the database is
shutting down.  Without entries `edit.new_files_[0]` does not exist. -/
def abandonFlush (s : LoggedDB) : Option LoggedDB :=
  match s.db.imm with
  | none => some s
  | some [] => none
  | some (e :: entries) =>
    some { s with
      db := { s.db with
        tables := update s.db.tables (newFileNumber s.db.next_file_number).1 (e :: entries)
        next_file_number := (newFileNumber s.db.next_file_number).2 } }

/-- `~DBImpl` with `MOD >= 7`.  `working` says that the background thread was in a flush. -/
def close (o : DBOptions Bytes Bytes) (fresh_write working : Bool) (s : LoggedDB) :
    Option LoggedDB :=
  (if working then s.abandonFlush else some s).bind fun s =>
    (s.compactTable o fresh_write s.db.imm).bind fun s =>
      s.compactTable o fresh_write (some s.db.mem)

/-- The version has the table file. -/
def HasTable (s : LoggedDB) (number : ℕ) : Prop :=
  ∃ level, ∃ f ∈ s.db.current level, f.number = number

/-- The table that a close leaves in no version: the one of a flush that was given up. -/
def orphan (s : LoggedDB) (working : Bool) : Option ℕ :=
  match s.db.imm with
  | some (_ :: _) => if working then some (newFileNumber s.db.next_file_number).1 else none
  | _ => none

/-- `DeleteObsoleteFiles` of `DB::Open` is defined.  `file_stats` is empty then; for a table file
that is in no version the entry behind its end is changed, unless `fresh_write` is set. -/
def DeletesDefined (fresh_write : Bool) (dir : Directory) (s : LoggedDB) : Prop :=
  fresh_write = true ∨ ∀ number, (dir.tables number).isSome = true → s.HasTable number

end LoggedDB

/-- The directory after a close of `s` to `t`.  While a database of this mode runs, every table file
is in its version. -/
structure ClosedTo (s : LoggedDB) (working : Bool) (t : LoggedDB) (dir : Directory) : Prop
    extends Crash t t.log.dest.length dir where
  only : ∀ number, (dir.tables number).isSome = true ↔
    t.HasTable number ∨ s.orphan working = some number

/-- A running database with a value log. -/
structure SeparatedStore where
  logged : LoggedDB
  vlog : VLog

namespace SeparatedStore

/-- The part that reads and writes use. -/
def toDB (s : SeparatedStore) : SeparatedDB := ⟨s.logged.db, s.vlog⟩

/-- Write that part back. -/
def withDB (s : SeparatedStore) (t : SeparatedDB) : SeparatedStore :=
  ⟨{ s.logged with db := t.db }, t.vlog⟩

/-- `DBImpl::Put`.  The address of the value is a `uint64_t`. -/
def put (s : SeparatedStore) (key val : Bytes) : Option SeparatedStore :=
  if (s.vlog.addRecord key val).1 < 2 ^ 64 then (s.toDB.put key val).map s.withDB else none

/-- `DBImpl::Delete`. -/
def delete (s : SeparatedStore) (key : Bytes) : Option SeparatedStore :=
  (s.toDB.delete key).map s.withDB

end SeparatedStore

/-- What `Get` finds in the memtables. -/
def DBState.memLookup {K V : Type*} [LinearOrder K] (s : DBState K V) (u : K) (snapshot : ℕ) :
    Option (Entry K V) :=
  (tableLookup s.mem u snapshot).or (s.imm.bind fun imm => tableLookup imm u snapshot)

/-- Every entry that `Get` finds in a memtable reads like the table files. -/
def SeparatedDB.TablesAgree (s : SeparatedDB) : Prop :=
  ∀ key e, s.db.memLookup key s.db.last_sequence = some e →
    s.vlog.resolve (answer (some e)) =
      s.vlog.resolve (answer (versionLookup s.db.tables s.db.current key s.db.last_sequence))

/-! ### Without a memtable -/

section

variable {K V : Type*} [LinearOrder K] {g : DBState K V} {m : K → Option V}

theorem Arranged.dropImm (h : Arranged g) : Arranged { g with imm := none } := by
  have hsub : ∀ e ∈ DBState.entries { g with imm := none }, e ∈ g.entries := by
    rintro e (he | ⟨imm, himm, -⟩ | he)
    · exact Or.inl he
    · cases himm
    · exact Or.inr (Or.inr he)
  exact ⟨h.mem_sorted, fun imm himm => (by cases himm), h.table, h.ordered, h.number, h.distinct,
    h.limit, fun e he => h.bounded e (hsub e he),
    fun e he e' he' => h.unique e (hsub e he) e' (hsub e' he'),
    fun e he e' ⟨imm, himm, _⟩ => (by cases himm), h.mem_level,
    fun e ⟨imm, himm, _⟩ => (by cases himm), h.zero, h.levels⟩

theorem Arranged.dropMem (h : Arranged g) : Arranged { g with mem := [] } := by
  have hsub : ∀ e ∈ DBState.entries { g with mem := [] }, e ∈ g.entries := by
    rintro e (he | he)
    · cases he
    · exact Or.inr he
  exact ⟨List.Pairwise.nil, h.imm_sorted, h.table, h.ordered, h.number, h.distinct, h.limit,
    fun e he => h.bounded e (hsub e he),
    fun e he e' he' => h.unique e (hsub e he) e' (hsub e' he'),
    fun e he => (by cases he), fun e he => (by cases he), h.imm_level, h.zero, h.levels⟩

theorem Represents.tables (h : Represents g m) :
    Represents { g with mem := [], imm := none }
      fun u => answer (versionLookup g.tables g.current u g.last_sequence) := by
  have harranged : Arranged { g with mem := [], imm := none } := h.arranged.dropImm.dropMem
  exact ⟨harranged, h.version, fun u r => harranged.reads_iff h.version.inside r⟩

theorem Represents.dropEmpty (h : Represents g m) (himm : g.imm = some []) :
    Represents { g with imm := none } m := by
  refine ⟨h.arranged.dropImm, h.version, h.denotes.congr (Set.ext fun e => ?_) rfl⟩
  refine or_congr_right (or_congr_left ⟨?_, ?_⟩)
  · rintro ⟨imm, hnone, -⟩
    cases hnone
  · rintro ⟨imm, hsome, he⟩
    obtain rfl := Option.some.inj (himm.symm.trans hsome)
    cases he

end

/-! ### The files -/

/-- The tables of the version and the memtables `mem` and `imm` stand for a map.  Nothing has been
written to the logs that recovery would read. -/
structure Unflushed (t : LoggedDB) (mem : List (Entry Bytes Bytes))
    (imm : Option (List (Entry Bytes Bytes))) (m : Bytes → Option Bytes) (next last : ℕ) : Prop
    extends Manifested t next last where
  represents : Represents { t.db with mem := mem, imm := imm } m
  flushed : ∀ level, ∀ e ∈ t.db.levelEntries level, e.1.sequence ≤ last
  number : ∀ level, ∀ f ∈ t.db.current level, f.number < next
  log_nil : t.log.dest = []
  logs_nil : ∀ p ∈ t.logs, t.log_number ≤ p.1 → p.2 = []

variable {t : LoggedDB} {m : Bytes → Option Bytes}

theorem recoverLogFile_nil (crc : Bytes → UInt32) (o : DBOptions Bytes Bytes) (ro : RecoveryOptions)
    (rp : Replay) : recoverLogFile crc o ro [] rp = some (.ok rp) := by
  obtain ⟨reader, hread, hreports⟩ : ∃ reader, (Log.Reader.new [] true 0).readRecord crc =
      some (none, reader) ∧ reader.reports = [] := ⟨_, rfl, rfl⟩
  have hreported : ro.reported reader = .ok := by
    rw [RecoveryOptions.reported, hreports]
    exact ite_self _
  simp only [recoverLogFile, recoverLogLoop, hread, hreported, ne_eq, not_true_eq_false, if_false]

theorem recoverLogs_of_empty (crc : Bytes → UInt32) (o : DBOptions Bytes Bytes)
    (ro : RecoveryOptions) {logs : List (ℕ × Bytes)} (hempty : ∀ p ∈ logs, p.2 = []) (rp : Replay) :
    ∃ number, recoverLogs crc o ro logs rp = some (.ok { rp with next_file_number := number }) := by
  induction logs generalizing rp with
  | nil => exact ⟨rp.next_file_number, rfl⟩
  | cons p logs ih =>
    obtain ⟨number, file⟩ := p
    obtain rfl : file = [] := hempty _ mem_cons_self
    rw [recoverLogs, recoverLogFile_nil]
    exact ih (fun p hp => hempty p (mem_cons_of_mem _ hp)) _

theorem Opened.unflushed (ho : Opened t m) :
    Unflushed t t.db.mem t.db.imm m t.db.next_file_number t.db.last_sequence where
  toManifested := ho.toManifested
  represents := ho.represents
  flushed := fun level e he => ho.represents.arranged.bounded e (Or.inr (Or.inr ⟨level, he⟩))
  number := ho.represents.arranged.number
  log_nil := by rw [ho.log_new]; rfl
  logs_nil := fun p hp hlive => absurd hlive (ho.obsolete p hp).not_ge

namespace Unflushed

variable {t t' : LoggedDB} {mem : List (Entry Bytes Bytes)}
  {imm : Option (List (Entry Bytes Bytes))} {m : Bytes → Option Bytes} {next last : ℕ}
  {entries : List (Entry Bytes Bytes)}

variable {n : ℕ}

theorem allocate (h : Unflushed t mem imm m next last) (hn : t.db.next_file_number ≤ n)
    {tables : ℕ → List (Entry Bytes Bytes)}
    (htables : ∀ level, ∀ f ∈ t.db.current level, tables f.number = t.db.tables f.number) :
    Unflushed { t with db := { t.db with tables := tables, next_file_number := n } } mem imm m
      next last := by
  have hrep := (h.represents.renumber (n := n) fun level f hf =>
    (h.represents.arranged.number level f hf).trans_le hn).retable tables t.db.compact_pointer
      t.db.compact htables
  refine
    { h with
      next_le := h.next_le.trans hn
      logfile_lt := h.logfile_lt.trans_le hn
      represents := hrep
      flushed := ?_ }
  rintro level e ⟨f, hf, he⟩
  exact h.flushed level e ⟨f, hf, by rwa [← htables level f hf]⟩

theorem switch (h : Unflushed t mem none m next last) : Unflushed t [] (some mem) m next last :=
  { h with represents := h.represents.switchMemTable rfl (le_refl _) }

theorem dropMemtables (h : Unflushed t mem imm m next last) :
    Unflushed t [] none
      (fun u => answer (versionLookup t.db.tables t.db.current u t.db.last_sequence)) next last :=
  { h with represents := h.represents.tables }

/-- **A flush** of the immutable memtable. -/
theorem withTable (h : Unflushed t mem (some entries) m next last) {o : DBOptions Bytes Bytes}
    {file : FileMetaData Bytes} (hfile : o.fileMetaData t.db.next_file_number entries = some file) :
    Unflushed (t.withTable (pickLevelForMemTableOutput o.max_file_size t.db.current
      file.smallest.user_key file.largest.user_key) file entries) mem none m
        (t.db.next_file_number + 1) t.db.last_sequence := by
  obtain ⟨hlevel, hside⟩ := h.represents.pickLevel o.max_file_size file
  have hrep := h.represents.flushImm rfl hfile hlevel hside
  exact
    { h.toManifested.withTable h.represents.arranged.limit (fileMetaData_number hfile) _
        entries with
      represents := hrep
      flushed := fun level e he => hrep.arranged.bounded e (Or.inr (Or.inr ⟨level, he⟩))
      number := hrep.arranged.number
      log_nil := h.log_nil
      logs_nil := fun p hp hlive => h.logs_nil p hp (h.log_le.trans hlive) }

/-- **`CompactMemTable(MemTable*)`** leaves nothing in the memtable. -/
theorem compactTable (h : Unflushed t mem (some entries) m next last) (o : DBOptions Bytes Bytes) :
    ∃ t' next' last', t.compactTable o true (some entries) = some t' ∧
      Unflushed t' mem none m next' last' ∧ t'.db.mem = t.db.mem := by
  simp only [LoggedDB.compactTable, Bool.true_eq_false, if_false]
  by_cases hnil : entries = []
  · subst hnil
    rw [if_pos rfl]
    have hskip := h.allocate (Nat.le_succ _) fun _ _ _ => rfl
    exact ⟨_, next, last, rfl, { hskip with represents := hskip.represents.dropEmpty rfl }, rfl⟩
  · rw [if_neg hnil]
    obtain ⟨file, hfile⟩ := fileMetaData_isSome o t.db.next_file_number hnil
    exact ⟨_, _, _, h.toManifested.flushTable_eq hfile, h.withTable hfile, rfl⟩

variable {dir : Directory}

theorem logs_empty (h : Unflushed t mem imm m next last) (hc : Crash t n dir) :
    ∀ p ∈ dir.logsToRecover t.log_number 0, p.2 = [] := by
  intro p hp
  rcases (h.mem_logsToRecover hc p).1 hp with ⟨hp, hlive⟩ | rfl
  · exact h.logs_nil p hp hlive
  · rw [h.log_nil, take_nil]

theorem openDB (h : Unflushed t [] none m next last) (hc : Crash t n dir)
    (crc : Bytes → UInt32) (o : DBOptions Bytes Bytes) (ro : RecoveryOptions) :
    ∃ l, openDB crc o ro dir = some (.ok l) ∧ Opened l m := by
  have hstored : Represents (t.tableState last next) m := by
    refine (h.represents.resequence (n := last) ?_ h.last_le).renumber h.number
    rintro e (he | ⟨imm, himm, -⟩ | ⟨level, he⟩)
    · cases he
    · cases himm
    · exact h.flushed level e he
  -- the logs are empty
  obtain ⟨ls, hls⟩ : ∃ ls : List LogFile, ls =
    (dir.logsToRecover t.log_number 0).map fun p => ⟨p.1, [], 0⟩ := ⟨_, rfl⟩
  have hlogs : dir.logsToRecover t.log_number 0 = ls.map (LogFile.contents crc) := by
    rw [hls, map_map]
    exact (map_id' _).symm.trans (map_congr_left fun p hp => Prod.ext rfl (h.logs_empty hc p hp))
  have hempty : ∀ l ∈ ls, l.batches = [] := by
    intro l hl
    rw [hls] at hl
    obtain ⟨p, -, rfl⟩ := mem_map.1 hl
    rfl
  obtain ⟨hfollow, hnone⟩ : LogFile.Follow crc last ls ∧
      ls.flatMap (LogFile.complete crc) = [] := by
    clear hls hlogs
    induction ls with
    | nil => exact ⟨trivial, rfl⟩
    | cons l ls ih =>
      obtain ⟨hfollow, hnone⟩ := ih fun l hl => hempty l (mem_cons_of_mem _ hl)
      have hl := hempty l mem_cons_self
      have hcomplete : l.complete crc = [] := by rw [LogFile.complete, hl]; rfl
      refine ⟨⟨by rw [hl]; trivial, by rw [hl]; exact h.last_le, ?_⟩, ?_⟩
      · rw [hcomplete]
        exact hfollow
      · rw [flatMap_cons, hcomplete, hnone, nil_append]
  have hopen := h.toManifested.openDB hstored (le_refl _) hc hlogs hfollow o ro
  rwa [hnone] at hopen

/-- **`DB::Open` keeps the version**, since the logs are empty. -/
theorem openDB_current (h : Unflushed t mem imm m next last) (hc : Crash t n dir)
    {crc : Bytes → UInt32} {o : DBOptions Bytes Bytes} {ro : RecoveryOptions} {l : LoggedDB}
    (hopen : Bourbon.openDB crc o ro dir = some (.ok l)) : l.db.current = t.db.current := by
  have hmanifest := h.manifest
  rw [← hc.manifest] at hmanifest
  simp only [Bourbon.openDB, hmanifest.recoverManifest_eq] at hopen
  split_ifs at hopen
  · cases Option.some.inj hopen
  obtain ⟨number, hlogs⟩ := recoverLogs_of_empty crc o ro (h.logs_empty hc)
    ⟨next + 1, fun number => (dir.tables number).getD [], [], 0⟩
  simp only [hlogs] at hopen
  obtain ⟨s, hs, hl⟩ := Option.map_eq_some_iff.1 hopen
  obtain rfl := Except.ok.inj hl
  rw [LoggedDB.logAndApply] at hs
  split_ifs at hs
  obtain rfl := Option.some.inj hs
  -- the edit of `DB::Open` has no files
  have hloggable : Loggable t.db.current (addFiles []) := ⟨nodup_nil, fun p hp => (by cases hp)⟩
  have hsame := applyEdit_addFiles h.represents.version.sorted hloggable
  rwa [← nextVersion_eq] at hsame

end Unflushed

/-! ### Values -/

/-- Everything in the map is the address of a value in the log. -/
def VLog.Locates (v : VLog) (m : Bytes → Option Bytes) : Prop :=
  ∀ key stored, m key = some stored → ∃ val, PointsTo v (some stored) (some val)

variable {v : VLog}

theorem VLog.Locates.step (h : v.Locates m) (op : VLogOp) :
    (v.step op).Locates m := by
  intro key stored hm
  obtain ⟨val, hval⟩ := h key stored hm
  exact ⟨val, hval.step op⟩

theorem VLog.Locates.apply (h : v.Locates m)
    {op : BatchOp Bytes Bytes}
    (hop : ∀ stored, op.result = some stored → ∃ val, PointsTo v (some stored) (some val)) :
    v.Locates (op.apply m) := by
  intro key stored hm
  by_cases hkey : key = op.key
  · subst hkey
    cases op with
    | put key value =>
      exact hop stored ((BatchOp.apply_put m key value).symm.trans hm)
    | delete key =>
      exact hop stored ((BatchOp.apply_delete m key).symm.trans hm)
  · rw [BatchOp.apply_of_ne _ _ hkey] at hm
    exact h key stored hm

/-- **Values are the same after the log has been closed and opened again.** -/
theorem VLog.Locates.resolve_reopen (h : v.Locates m)
    (key : Bytes) : v.reopen.resolve (m key) = v.resolve (m key) := by
  cases hm : m key with
  | none => rfl
  | some stored =>
    obtain ⟨val, hval⟩ := h key stored hm
    have hreopen : PointsTo v.reopen (some stored) (some val) := hval.step .reopen
    rw [hreopen.resolve_eq, hval.resolve_eq]

theorem encodeFixed_mod (n value : ℕ) : encodeFixed n (value % 256 ^ n) = encodeFixed n value := by
  induction n generalizing value with
  | zero => rfl
  | succ n ih =>
    have hhead : UInt8.ofNat (value % 256 ^ (n + 1)) = UInt8.ofNat value := by
      refine UInt8.toNat_inj.1 ?_
      rw [UInt8.toNat_ofNat', UInt8.toNat_ofNat', pow_succ']
      exact Nat.mod_mul_right_mod _ _ _
    have hrest : value % 256 ^ (n + 1) / 256 = value / 256 % 256 ^ n := by
      rw [pow_succ', Nat.mod_mul_right_div_self]
    rw [encodeFixed, encodeFixed, hhead, hrest, ih]

/-- The part of a value that its size in 32 bits says. -/
theorem VLog.Holds.take {address : ℕ} {value : Bytes} (h : v.Holds address value) (n : ℕ) :
    v.Holds address (value.take n) := by
  obtain ⟨rest, hrest⟩ := h.bytes
  have hle : (value.take n).length ≤ value.length := length_take_le' _ _
  have hinside := h.inside
  refine ⟨h.sized, ⟨value.drop n ++ rest, ?_⟩, by omega, ?_⟩
  · rw [hrest, ← append_assoc, take_append_drop]
  · rcases h.side with hside | hside
    · exact Or.inl (by omega)
    · exact Or.inr hside

/-- What `Put` stores is an address, also for a value whose size does not fit. -/
theorem pointsTo_addRecord (hsized : v.Sized) (key val : Bytes)
    (haddress : (v.addRecord key val).1 < 2 ^ 64) :
    ∃ val', PointsTo (v.addRecord key val).2
      (some (storedValue (v.addRecord key val).1 val.length)) (some val') := by
  have hmod : val.length % 2 ^ 32 ≤ val.length := Nat.mod_le _ _
  have hlength : (val.take (val.length % 2 ^ 32)).length = val.length % 2 ^ 32 := by
    rw [length_take, Nat.min_eq_left hmod]
  refine ⟨val.take (val.length % 2 ^ 32), _, ?_, haddress, ?_,
    (VLog.holds_addRecord hsized key val).take _⟩
  · rw [hlength, storedValue, storedValue]
    exact congrArg _ (encodeFixed_mod 4 val.length).symm
  · rw [hlength]
    exact Nat.mod_lt _ (by decide)

/-! ### Sessions -/

/-- A state stands for addresses. -/
def VLog.LocatesState (v : VLog) (g : DBState Bytes Bytes) : Prop :=
  ∃ m, Represents g m ∧ v.Locates m

/-- The invariant of a running database.  Not only what is visible now is found in the value log,
but also what is left when memtables are lost. -/
structure Intact (s : SeparatedStore) (m : Bytes → Option Bytes) (next last : ℕ) : Prop
    extends Unflushed s.logged s.logged.db.mem s.logged.db.imm m next last where
  sized : s.vlog.Sized
  located : s.vlog.Locates m
  located_imm : s.vlog.LocatesState { s.logged.db with mem := [] }
  located_tables : s.vlog.LocatesState { s.logged.db with mem := [], imm := none }

theorem Opened.intact {l : LoggedDB} (ho : Opened l m)
    (hsized : v.Sized) (hm : v.Locates m) :
    Intact ⟨l, v⟩ m l.db.next_file_number l.db.last_sequence := by
  have himm : ({ l.db with mem := [] } : DBState Bytes Bytes) = l.db := by rw [← ho.mem_nil]
  have htables : ({ l.db with mem := [], imm := none } : DBState Bytes Bytes) = l.db := by
    rw [← ho.mem_nil, ← ho.imm_none]
  exact
    { ho.unflushed with
      sized := hsized
      located := hm
      located_imm := ⟨m, by rw [himm]; exact ho.represents, hm⟩
      located_tables := ⟨m, by rw [htables]; exact ho.represents, hm⟩ }

namespace Intact

variable {s s' : SeparatedStore} {m : Bytes → Option Bytes} {next last : ℕ}

variable {v : VLog}

theorem advance {g : DBState Bytes Bytes} {v' : VLog} (h : v.LocatesState g) {n : ℕ}
    (hn : g.last_sequence ≤ n) (hlimit : n ≤ kMaxSequenceNumber)
    (hv : ∀ m, v.Locates m → v'.Locates m) : v'.LocatesState { g with last_sequence := n } := by
  obtain ⟨m, hg, hm⟩ := h
  exact ⟨m, hg.resequence (fun e he => (hg.arranged.bounded e he).trans hn) hlimit, hv m hm⟩

theorem write (h : Intact s m next last) {op : BatchOp Bytes Bytes} {db : DBState Bytes Bytes}
    (hdb : s.logged.db.write [op] = some db) (hsized : v.Sized)
    (hv : ∀ m, s.vlog.Locates m → v.Locates m)
    (hop : ∀ stored, op.result = some stored → ∃ val, PointsTo v (some stored) (some val)) :
    Intact ⟨{ s.logged with db := db }, v⟩ (op.apply m) next last := by
  obtain ⟨hlimit, rfl⟩ := DBState.write_some hdb
  exact
    { h with
      represents := h.represents.write hlimit
      sized := hsized
      located := (hv m h.located).apply hop
      located_imm := advance h.located_imm (Nat.le_add_right _ _) hlimit hv
      located_tables := advance h.located_tables (Nat.le_add_right _ _) hlimit hv }

variable {key : Bytes}

theorem put (h : Intact s m next last) {val : Bytes} (hs : s.put key val = some s') :
    ∃ m', Intact s' m' next last := by
  rw [SeparatedStore.put] at hs
  split_ifs at hs with haddress
  rw [SeparatedDB.put, Option.map_map] at hs
  obtain ⟨db, hdb, rfl⟩ := Option.map_eq_some_iff.1 hs
  refine ⟨_, h.write hdb (h.sized.step (.addRecord key val))
    (fun m hm => hm.step (.addRecord key val)) fun stored heq => ?_⟩
  obtain rfl := Option.some.inj heq
  exact pointsTo_addRecord h.sized key val haddress

theorem delete (h : Intact s m next last) (hs : s.delete key = some s') :
    ∃ m', Intact s' m' next last := by
  rw [SeparatedStore.delete, SeparatedDB.delete, SeparatedDB.write, Option.map_map] at hs
  obtain ⟨db, hdb, rfl⟩ := Option.map_eq_some_iff.1 hs
  exact ⟨_, h.write hdb h.sized (fun m hm => hm) fun stored heq => by cases heq⟩

variable {l : LoggedDB}

theorem switchMemTable (h : Intact s m next last)
    (hs : s.logged.switchMemTable = some l) : Intact ⟨l, s.vlog⟩ m next last := by
  have hm := h.toManifested.switchMemTable hs
  obtain ⟨db, hdb, rfl⟩ := Option.map_eq_some_iff.1 hs
  cases himm : s.logged.db.imm with
  | some imm => simp [DBState.switchMemTable, himm] at hdb
  | none =>
    simp only [DBState.switchMemTable, himm, Option.some.injEq] at hdb
    subst hdb
    have hrep := h.represents.switchMemTable himm (Nat.le_succ s.logged.db.next_file_number)
    obtain ⟨m₀, hrep₀, hm₀⟩ := h.located_tables
    refine
      { hm with
        represents := hrep
        flushed := h.flushed
        number := h.number
        log_nil := rfl
        logs_nil := fun p hp hlive => ?_
        sized := h.sized
        located := h.located
        located_imm := ⟨m, hrep, h.located⟩
        located_tables := ⟨m₀, hrep₀.renumber fun level f hf =>
          (hrep₀.arranged.number level f hf).trans (Nat.lt_succ_self _), hm₀⟩ }
    rcases mem_append.1 hp with hp | hp
    · exact h.logs_nil p hp hlive
    · rw [mem_singleton.1 hp]
      exact h.log_nil

theorem compactMemTable (h : Intact s m next last) {o : DBOptions Bytes Bytes}
    (hs : s.logged.compactMemTable o = some l) :
    ∃ next' last', Intact ⟨l, s.vlog⟩ m next' last' := by
  cases himm : s.logged.db.imm with
  | none => simp [LoggedDB.compactMemTable, himm] at hs
  | some entries =>
    unfold LoggedDB.compactMemTable at hs
    simp only [himm] at hs
    obtain ⟨t, ht, rfl⟩ := Option.map_eq_some_iff.1 hs
    obtain ⟨file, hfile, rfl⟩ := h.toManifested.flushTable_inv ht
    have hu : Unflushed s.logged s.logged.db.mem (some entries) m next last := himm ▸ h.toUnflushed
    -- without the memtable the flush does the same
    obtain ⟨m₁, hrep₁, hm₁⟩ := h.located_imm
    obtain ⟨hlevel, hside⟩ := hrep₁.pickLevel o.max_file_size file
    have htables := hrep₁.flushImm himm hfile hlevel hside
    exact ⟨_, _, { hu.withTable hfile with
      sized := h.sized
      located := h.located
      located_imm := ⟨m₁, htables, hm₁⟩
      located_tables := ⟨m₁, htables, hm₁⟩ }⟩

theorem deleteObsoleteFiles (h : Intact s m next last) :
    Intact ⟨s.logged.deleteObsoleteFiles, s.vlog⟩ m next last :=
  { h with
    toManifested := h.toManifested.deleteObsoleteFiles
    logs_nil := fun p hp => h.logs_nil p (mem_of_mem_filter hp) }

theorem locates_tables (h : Intact s m next last) : s.vlog.Locates fun u =>
    answer (versionLookup s.logged.db.tables s.logged.db.current u s.logged.db.last_sequence) := by
  obtain ⟨m₀, hrep, hm₀⟩ := h.located_tables
  have heq : (fun u => answer (versionLookup s.logged.db.tables s.logged.db.current u
      s.logged.db.last_sequence)) = m₀ := funext fun u => hrep.get_eq u
  rw [heq]
  exact hm₀

end Intact

/-! ### Closing -/

namespace Unflushed

variable {t : LoggedDB} {m : Bytes → Option Bytes} {next last : ℕ}

theorem abandonFlush {t' : LoggedDB} (ht : t.abandonFlush = some t')
    (hnumber : ∀ level, ∀ f ∈ t.db.current level, f.number < t.db.next_file_number) :
    (∀ {mem imm m next last}, Unflushed t mem imm m next last →
      Unflushed t' mem imm m next last) ∧ t'.db.mem = t.db.mem ∧ t'.db.imm = t.db.imm := by
  unfold LoggedDB.abandonFlush at ht
  split at ht
  · obtain rfl := Option.some.inj ht
    exact ⟨id, rfl, rfl⟩
  · cases ht
  · obtain rfl := Option.some.inj ht
    refine ⟨fun h => h.allocate (Nat.le_succ _) fun level f hf => ?_, rfl, rfl⟩
    exact update_of_ne (hnumber level f hf).ne _ _

theorem compactTables (h : Unflushed t t.db.mem t.db.imm m next last) (o : DBOptions Bytes Bytes) :
    ∃ t' next' last', ((t.compactTable o true t.db.imm).bind fun s =>
      s.compactTable o true (some s.db.mem)) = some t' ∧ Unflushed t' [] none m next' last' := by
  obtain ⟨t₁, next₁, last₁, ht₁, h₁, hmem⟩ : ∃ t₁ next₁ last₁,
      t.compactTable o true t.db.imm = some t₁ ∧
        Unflushed t₁ t.db.mem none m next₁ last₁ ∧ t₁.db.mem = t.db.mem := by
    cases himm : t.db.imm with
    | none => exact ⟨t, next, last, rfl, himm ▸ h, rfl⟩
    | some entries =>
      rw [himm] at h
      exact h.compactTable o
  obtain ⟨t₂, next₂, last₂, ht₂, h₂, -⟩ := h₁.switch.compactTable o
  refine ⟨t₂, next₂, last₂, ?_, h₂⟩
  rw [ht₁, Option.bind_some, hmem]
  exact ht₂

/-- **What a close leaves**: with `fresh_write` everything, without it the tables.  Only the flush
of an empty memtable stops it. -/
theorem close (h : Unflushed t t.db.mem t.db.imm m next last) (o : DBOptions Bytes Bytes)
    (fresh_write working : Bool) :
    t.close o fresh_write working = none ∧ working = true ∧ t.db.imm = some [] ∨
      ∃ t' next' last', t.close o fresh_write working = some t' ∧
        Unflushed t' [] none (if fresh_write = true then m else fun u =>
          answer (versionLookup t.db.tables t.db.current u t.db.last_sequence)) next' last' := by
  rw [LoggedDB.close]
  cases ht₁ : (if working = true then t.abandonFlush else some t) with
  | none =>
    cases working with
    | false => cases ht₁
    | true =>
      refine Or.inl ⟨rfl, rfl, ?_⟩
      rw [if_pos rfl] at ht₁
      unfold LoggedDB.abandonFlush at ht₁
      split at ht₁
      · cases ht₁
      · assumption
      · cases ht₁
  | some t₁ =>
    right
    obtain ⟨hkeep, hmem, himm⟩ : (∀ {mem imm m next last}, Unflushed t mem imm m next last →
        Unflushed t₁ mem imm m next last) ∧ t₁.db.mem = t.db.mem ∧ t₁.db.imm = t.db.imm := by
      cases working with
      | true => exact abandonFlush ht₁ h.represents.arranged.number
      | false =>
        obtain rfl := Option.some.inj ht₁
        exact ⟨id, rfl, rfl⟩
    cases fresh_write with
    | true =>
      have h₁ := hkeep h
      rw [← hmem, ← himm] at h₁
      exact h₁.compactTables o
    | false =>
      have hnone : ∀ (s : LoggedDB) table, s.compactTable o false table = some s := by
        intro s table
        cases table <;> rfl
      refine ⟨t₁, next, last, ?_, hkeep h.dropMemtables⟩
      rw [Option.bind_some, hnone, Option.bind_some, hnone]

end Unflushed

namespace LoggedDB

variable {s s' t : LoggedDB} {o : DBOptions Bytes Bytes} {fresh_write working : Bool} {number : ℕ}

theorem compactTable_tables {table : Option (List (Entry Bytes Bytes))}
    (hs : s.compactTable o fresh_write table = some s') :
    s.db.next_file_number ≤ s'.db.next_file_number ∧ ∀ number, s'.HasTable number →
      s.HasTable number ∨ s.db.next_file_number ≤ number := by
  cases table with
  | none =>
    obtain rfl := Option.some.inj hs
    exact ⟨le_refl _, fun number => Or.inl⟩
  | some entries =>
    simp only [compactTable, flushTable] at hs
    split_ifs at hs
    · obtain rfl := Option.some.inj hs
      exact ⟨le_refl _, fun number => Or.inl⟩
    · obtain rfl := Option.some.inj hs
      exact ⟨Nat.le_succ _, fun number => Or.inl⟩
    · cases hfile : o.fileMetaData s.db.next_file_number entries with
      | none => simp only [hfile, reduceCtorEq] at hs
      | some file =>
        simp only [hfile, logAndApply] at hs
        split_ifs at hs
        obtain rfl := Option.some.inj hs
        refine ⟨Nat.le_succ _, ?_⟩
        rintro number ⟨level, f, hf, rfl⟩
        rw [nextVersion_eq, mem_applyEdit] at hf
        rcases hf.1 with hf | hf
        · exact Or.inl ⟨level, f, hf, rfl⟩
        · obtain ⟨-, rfl⟩ := Prod.mk.inj (mem_singleton.1 (VersionEdit.mem_addedFiles hf))
          exact Or.inr (fileMetaData_number hfile).ge

/-- The table of a flush that was given up is in no version. -/
theorem close_orphan (ht : s.close o fresh_write working = some t)
    (horphan : s.orphan working = some number)
    (hnumber : ∀ level, ∀ f ∈ s.db.current level, f.number < s.db.next_file_number) :
    ¬t.HasTable number := by
  cases himm : s.db.imm with
  | none => simp only [orphan, himm, reduceCtorEq] at horphan
  | some entries =>
    cases entries with
    | nil => simp only [orphan, himm, reduceCtorEq] at horphan
    | cons e entries =>
      cases working with
      | false => simp [orphan, himm] at horphan
      | true =>
        obtain rfl : s.db.next_file_number = number := by simpa [orphan, himm] using horphan
        simp only [close, if_true, abandonFlush, himm, Option.bind_some] at ht
        obtain ⟨s₁, hs₁, hs₂⟩ := Option.bind_eq_some_iff.1 ht
        obtain ⟨hle₁, htables₁⟩ := compactTable_tables hs₁
        intro hhas
        -- the tables of the close have larger numbers
        rcases (compactTable_tables hs₂).2 _ hhas with hhas | hle
        · rcases htables₁ _ hhas with ⟨level, f, hf, heq⟩ | hle
          · exact (hnumber level f hf).ne heq
          · exact Nat.not_succ_le_self _ hle
        · exact Nat.not_succ_le_self _ (hle₁.trans hle)

theorem orphan_eq_none (ht : s.close o fresh_write working = some t) :
    s.orphan working = none ↔ working = false ∨ s.db.imm = none := by
  cases himm : s.db.imm with
  | none => simp [orphan, himm]
  | some entries =>
    cases entries with
    | nil =>
      cases working with
      | false => simp [orphan, himm]
      | true => simp [close, abandonFlush, himm] at ht
    | cons e entries => cases working <;> simp [orphan, himm]

end LoggedDB

variable {s : SeparatedStore}

/-- **What the database is after a close.** -/
theorem Intact.reopen {next last : ℕ} (h : Intact s m next last) {o : DBOptions Bytes Bytes}
    {fresh_write working : Bool} (ht : s.logged.close o fresh_write working = some t) {n : ℕ}
    {dir : Directory} (hc : Crash t n dir) (crc : Bytes → UInt32) (o' : DBOptions Bytes Bytes)
    (ro : RecoveryOptions) :
    ∃ l m', openDB crc o' ro dir = some (.ok l) ∧ Opened l m' ∧ s.vlog.Locates m' ∧
      l.db.current = t.db.current ∧
      m' = if fresh_write = true then m
        else fun u => answer (versionLookup s.logged.db.tables s.logged.db.current u
          s.logged.db.last_sequence) := by
  rcases h.toUnflushed.close o fresh_write working with ⟨hnone, -⟩ | ⟨t', next', last', ht', hu⟩
  · rw [hnone] at ht
    cases ht
  · obtain rfl := Option.some.inj (ht.symm.trans ht')
    obtain ⟨l, hopen, ho⟩ := hu.openDB hc crc o' ro
    refine ⟨l, _, hopen, ho, ?_, hu.openDB_current hc hopen, rfl⟩
    cases fresh_write with
    | true => exact h.located
    | false => exact h.locates_tables

/-- The states of a database with `MOD >= 7`, over any number of sessions. -/
inductive SeparatedReaches (crc : Bytes → UInt32) : SeparatedStore → Prop where
  | create (o : DBOptions Bytes Bytes) (ro : RecoveryOptions) (file : Bytes) {l : LoggedDB} :
      openDB crc o ro Directory.newDB = some (.ok l) → SeparatedReaches crc ⟨l, VLog.new file⟩
  | put (key val : Bytes) {s s' : SeparatedStore} :
      SeparatedReaches crc s → s.put key val = some s' → SeparatedReaches crc s'
  | delete (key : Bytes) {s s' : SeparatedStore} :
      SeparatedReaches crc s → s.delete key = some s' → SeparatedReaches crc s'
  | switchMemTable {s : SeparatedStore} {l : LoggedDB} :
      SeparatedReaches crc s → s.logged.switchMemTable = some l → SeparatedReaches crc ⟨l, s.vlog⟩
  | compactMemTable (o : DBOptions Bytes Bytes) {s : SeparatedStore} {l : LoggedDB} :
      SeparatedReaches crc s → s.logged.compactMemTable o = some l →
      SeparatedReaches crc ⟨l, s.vlog⟩
  | deleteObsoleteFiles {s : SeparatedStore} :
      SeparatedReaches crc s → SeparatedReaches crc ⟨s.logged.deleteObsoleteFiles, s.vlog⟩
  | reopen (o : DBOptions Bytes Bytes) (ro : RecoveryOptions) (fresh_write working : Bool)
      {dir : Directory} {s : SeparatedStore} {t l : LoggedDB} :
      SeparatedReaches crc s → s.logged.close o fresh_write working = some t →
      Crash t t.log.dest.length dir → openDB crc o ro dir = some (.ok l) →
      SeparatedReaches crc ⟨l, s.vlog.reopen⟩

/-- **One session after the other.** -/
theorem SeparatedReaches.intact {crc : Bytes → UInt32}
    (hr : SeparatedReaches crc s) : ∃ m next last, Intact s m next last := by
  induction hr with
  | create o ro file hopen =>
    obtain ⟨l, hopen', ho⟩ := opened_newDB crc o ro
    obtain rfl := Except.ok.inj (Option.some.inj (hopen.symm.trans hopen'))
    exact ⟨_, _, _, ho.intact (VLog.sized_new file) fun key stored hm => by cases hm⟩
  | put key val _ hs ih =>
    obtain ⟨m, next, last, h⟩ := ih
    obtain ⟨m', h'⟩ := h.put hs
    exact ⟨m', next, last, h'⟩
  | delete key _ hs ih =>
    obtain ⟨m, next, last, h⟩ := ih
    obtain ⟨m', h'⟩ := h.delete hs
    exact ⟨m', next, last, h'⟩
  | switchMemTable _ hs ih =>
    obtain ⟨m, next, last, h⟩ := ih
    exact ⟨m, next, last, h.switchMemTable hs⟩
  | compactMemTable o _ hs ih =>
    obtain ⟨m, next, last, h⟩ := ih
    obtain ⟨next', last', h'⟩ := h.compactMemTable hs
    exact ⟨m, next', last', h'⟩
  | deleteObsoleteFiles _ ih =>
    obtain ⟨m, next, last, h⟩ := ih
    exact ⟨m, next, last, h.deleteObsoleteFiles⟩
  | reopen o ro fresh_write working _ ht hc hopen ih =>
    obtain ⟨m, next, last, h⟩ := ih
    obtain ⟨l, m', hopen', ho, hm', -, -⟩ := h.reopen ht hc crc o ro
    obtain rfl := Except.ok.inj (Option.some.inj (hopen.symm.trans hopen'))
    exact ⟨m', _, _, ho.intact (h.sized.step .reopen) (hm'.step .reopen)⟩

/-- `DeleteObsoleteFiles` is defined after a close without a flush that was given up. -/
theorem deletesDefined_iff {o : DBOptions Bytes Bytes} {fresh_write working : Bool}
    {s t l : LoggedDB} {dir : Directory} (ht : s.close o fresh_write working = some t)
    (hnumber : ∀ level, ∀ f ∈ s.db.current level, f.number < s.db.next_file_number)
    (hc : ClosedTo s working t dir) (hcurrent : l.db.current = t.db.current) (fresh_write' : Bool) :
    l.DeletesDefined fresh_write' dir ↔
      fresh_write' = true ∨ working = false ∨ s.db.imm = none := by
  have hsame : ∀ number, l.HasTable number ↔ t.HasTable number := by
    intro number
    rw [LoggedDB.HasTable, hcurrent]
    rfl
  rw [← LoggedDB.orphan_eq_none ht]
  refine or_congr_right ⟨fun hall => ?_, fun hnone number hsome => ?_⟩
  · cases horphan : s.orphan working with
    | none => rfl
    | some number =>
      have hhas := hall number ((hc.only number).2 (Or.inr horphan))
      exact absurd ((hsame number).1 hhas) (LoggedDB.close_orphan ht horphan hnumber)
  · rcases (hc.only number).1 hsome with hhas | horphan
    · exact (hsame number).2 hhas
    · rw [hnone] at horphan
      cases horphan

/-- **A close keeps what `Get` returns if and only if `fresh_write` is set or the memtables make no
difference**, and `DB::Open` is defined if and only if it runs with `fresh_write` or no flush was
given up.  The close fails only where the background thread flushes an empty memtable. -/
theorem get_of_reopened_iff (crc : Bytes → UInt32) (s : SeparatedStore)
    (hr : SeparatedReaches crc s) (o : DBOptions Bytes Bytes) (fresh_write working : Bool) :
    (s.logged.close o fresh_write working = none →
      working = true ∧ s.logged.db.imm = some []) ∧
    ∀ t, s.logged.close o fresh_write working = some t →
      ∀ dir, ClosedTo s.logged working t dir → ∀ o' ro fresh_write', ∃ l,
        openDB crc o' ro dir = some (.ok l) ∧
        (l.DeletesDefined fresh_write' dir ∧
            (∀ key, SeparatedDB.get ⟨l.db, s.vlog.reopen⟩ key = s.toDB.get key) ↔
          (fresh_write' = true ∨ working = false ∨ s.logged.db.imm = none) ∧
            (fresh_write = true ∨ s.toDB.TablesAgree)) := by
  obtain ⟨m, next, last, h⟩ := hr.intact
  constructor
  · intro hnone
    rcases h.toUnflushed.close o fresh_write working with ⟨-, hworking⟩ | ⟨t, _, _, ht, -⟩
    · exact hworking
    · rw [hnone] at ht
      cases ht
  · intro t ht dir hc o' ro fresh_write'
    obtain ⟨l, m', hopen, ho, hlocates, hcurrent, hm'⟩ := h.reopen ht hc.toCrash crc o' ro
    refine ⟨l, hopen, and_congr
      (deletesDefined_iff ht h.represents.arranged.number hc hcurrent fresh_write') ?_⟩
    have hafter : ∀ key, SeparatedDB.get ⟨l.db, s.vlog.reopen⟩ key = s.vlog.resolve (m' key) := by
      intro key
      rw [SeparatedDB.get, ← hlocates.resolve_reopen key]
      exact congrArg _ (ho.represents.get_eq key)
    simp only [hafter]
    simp only [SeparatedDB.get]
    cases fresh_write with
    | true =>
      refine iff_of_true (fun key => ?_) (Or.inl rfl)
      rw [hm', if_pos rfl]
      exact congrArg _ (h.represents.get_eq key).symm
    | false =>
      rw [if_neg Bool.false_ne_true] at hm'
      subst hm'
      rw [or_iff_right Bool.false_ne_true]
      refine forall_congr' fun key => ?_
      -- `Get` looks into the memtables first
      have hget : s.toDB.db.get key s.toDB.db.last_sequence =
          answer ((s.toDB.db.memLookup key s.toDB.db.last_sequence).or (versionLookup
            s.toDB.db.tables s.toDB.db.current key s.toDB.db.last_sequence)) := by
        rw [DBState.get, DBState.getEntry, DBState.memLookup, Option.or_assoc]
      rw [hget]
      cases s.toDB.db.memLookup key s.toDB.db.last_sequence with
      | none => exact iff_of_true rfl fun e he => (by cases he)
      | some e =>
        constructor
        · rintro heq e' he'
          obtain rfl := Option.some.inj he'
          exact heq.symm
        · exact fun hagree => (hagree e rfl).symm

/-- The files of a database, a table of its own, and no others. -/
def LoggedDB.directory (t : LoggedDB) (orphan : Option ℕ) : Directory :=
  { manifest := t.manifest
    logs := t.logs ++ [(t.logfile_number, t.log.dest)]
    tables := fun number =>
      if orphan = some number ∨ (List.range kNumLevels).any fun level =>
        (t.db.current level).any fun f => f.number == number then some (t.db.tables number)
      else none
    others := [] }

theorem LoggedDB.hasTable_iff (hshallow : t.db.Shallow) (number : ℕ) :
    t.HasTable number ↔ ((List.range kNumLevels).any fun level =>
      (t.db.current level).any fun f => f.number == number) = true := by
  simp only [any_eq_true, mem_range, beq_iff_eq]
  refine exists_congr fun level => ⟨fun ⟨f, hf, hnumber⟩ => ⟨?_, f, hf, hnumber⟩, And.right⟩
  by_contra hle
  rw [hshallow level (not_lt.1 hle)] at hf
  cases hf

theorem closedTo_directory (s : LoggedDB) (working : Bool) (hshallow : t.db.Shallow)
    (hnames : ((t.logs ++ [(t.logfile_number, t.log.dest)]).map Prod.fst).Nodup) :
    ClosedTo s working t (t.directory (s.orphan working)) where
  manifest := rfl
  tables := fun level f hf => if_pos (Or.inr ((t.hasTable_iff hshallow _).1 ⟨level, f, hf, rfl⟩))
  logs := by
    intro p _
    rw [take_length]
    exact mem_append.trans (or_congr_right mem_singleton)
  names := hnames
  only := by
    intro number
    rw [t.hasTable_iff hshallow, or_comm]
    dsimp only [LoggedDB.directory]
    split_ifs with htable
    · exact iff_of_true rfl htable
    · exact iff_of_false Bool.false_ne_true htable

namespace CloseExample

open RecoveryExample (options recoveryOptions newDatabase)

/-- A new database. -/
def newStore : SeparatedStore := ⟨newDatabase, VLog.new []⟩

theorem reaches_newStore : SeparatedReaches zeroCrc newStore :=
  .create options recoveryOptions [] (l := newDatabase) rfl

/-- One `Put`. -/
def written : SeparatedStore := (newStore.put [107] [1]).getD newStore

theorem reaches_written : SeparatedReaches zeroCrc written := .put [107] [1] reaches_newStore rfl

/-- The first key waits in the immutable memtable, the second one is in the memtable. -/
def running : SeparatedStore :=
  (written.logged.switchMemTable.bind fun l =>
    SeparatedStore.put ⟨l, written.vlog⟩ [108] [2, 2]).getD newStore

theorem reaches_running : SeparatedReaches zeroCrc running :=
  .put [108] [2, 2] (.switchMemTable reaches_written rfl) rfl

/-- After the destructor. -/
def closed : LoggedDB := (running.logged.close options true true).getD newDatabase

end CloseExample

open RecoveryExample CloseExample in
theorem get_of_reopened_iff_fresh_write :
    ∃ l, CloseExample.running.logged.close options true true = some closed ∧
      CloseExample.running.logged.orphan true = some 5 ∧
      openDB zeroCrc options recoveryOptions (closed.directory (some 5)) = some (.ok l) ∧
      l.DeletesDefined true (closed.directory (some 5)) ∧
      ∀ key, SeparatedDB.get ⟨l.db, CloseExample.running.vlog.reopen⟩ key =
        CloseExample.running.toDB.get key := by
  have hclosed : CloseExample.running.logged.close options true true = some closed := rfl
  have hshallow : closed.db.Shallow := by
    obtain ⟨m, next, last, h⟩ := CloseExample.reaches_running.intact
    rcases h.toUnflushed.close options true true with ⟨hnone, -⟩ | ⟨t, _, _, ht, hu⟩
    · cases hclosed.symm.trans hnone
    · obtain rfl := Option.some.inj (hclosed.symm.trans ht)
      exact hu.represents.version.inside
  have hdir : ClosedTo CloseExample.running.logged true closed (closed.directory (some 5)) :=
    closedTo_directory CloseExample.running.logged true hshallow (by decide)
  obtain ⟨l, hopen, hiff⟩ := (get_of_reopened_iff zeroCrc CloseExample.running
    CloseExample.reaches_running options true true).2 closed hclosed _ hdir options recoveryOptions
      true
  exact ⟨l, hclosed, rfl, hopen, hiff.2 ⟨Or.inl rfl, Or.inl rfl⟩⟩

open RecoveryExample CloseExample in
/-- **Without `fresh_write` a `Put` is lost when the database is closed.** -/
theorem get_of_reopened_lost :
    ∃ t l, SeparatedReaches zeroCrc written ∧ written.logged.close options false false = some t ∧
      ClosedTo written.logged false t (t.directory none) ∧
      openDB zeroCrc options recoveryOptions (t.directory none) = some (.ok l) ∧
      written.toDB.get [107] = some (some [1]) ∧
      SeparatedDB.get ⟨l.db, written.vlog.reopen⟩ [107] = some none := by
  have hdir : ClosedTo written.logged false written.logged (written.logged.directory none) :=
    closedTo_directory written.logged false (fun level _ => rfl) (by decide)
  have hget : ((openDB zeroCrc options recoveryOptions (written.logged.directory none)).map fun r =>
      r.toOption.map fun l => SeparatedDB.get ⟨l.db, written.vlog.reopen⟩ [107]) =
        some (some (some none)) := by decide +kernel
  obtain ⟨r, hopen, hr⟩ := Option.map_eq_some_iff.1 hget
  cases r with
  | error status => cases hr
  | ok l =>
    exact ⟨written.logged, l, reaches_written, rfl, hdir, hopen, by decide +kernel,
      Option.some.inj hr⟩

end Bourbon
