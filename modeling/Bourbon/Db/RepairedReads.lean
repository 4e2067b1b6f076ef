import Mathlib.Data.Set.Finite.Lemmas
import Mathlib.Data.Set.Finite.List
import Bourbon.Db.QueueMoves
import Bourbon.Db.Repair

/-!
# Reads after a repair

After a repair all files are at level 0, and `Get` takes the file with the largest number for the
newest one.  A compaction writes old entries to files with new numbers, so that this order need not
be the order of ages; the logs are numbered in the order in which the directory lists them.

* `RunningDB` : a running database with its logs, for `MOD < 7`;
* `Foremost` : the table or log from which a key is read after the repair;
* `get_repaired_iff` : `Get` returns what it returned before if and only if for every key a read of
  that table or log does;
* `get_repaired_stale` : a run after which it does not.
-/

namespace Bourbon

open List Option

/-! ### The database before the repair -/

/-- A running database with its logs.  The manifest is not here: a repair does not read it. -/
structure RunningDB where
  db : DBState Bytes Bytes
  logfile_number : ℕ
  log : Log.Writer
  /-- Number and contents of the logs before the current one. -/
  logs : List (ℕ × Bytes)

/-- A write, a log switch or background work. -/
inductive RunningAction where
  | write (batch : WriteBatch)
  | switchMemTable
  /-- A step of the background thread. -/
  | background (action : DBAction Bytes Bytes)

namespace RunningDB

/-- A new database. -/
def init : RunningDB := ⟨DBState.init, 3, .new, []⟩

/-- The logs that are left after a step of the background thread: a flush makes those before the
current one obsolete. -/
def liveLogs (s : RunningDB) : DBAction Bytes Bytes → List (ℕ × Bytes)
  | .compactMemTable => s.logs.filter fun p => s.logfile_number ≤ p.1
  | _ => s.logs

end RunningDB

/-- One step. -/
def runningStep (crc : Bytes → UInt32) (o : DBOptions Bytes Bytes) (s : RunningDB) :
    RunningAction → Option RunningDB
  | .write batch =>
    let updates := batch.setSequence (s.db.last_sequence + 1)
    if updates.iterate.1 = .ok then
      (s.db.write updates.iterate.2).map fun db =>
        { s with db := db, log := s.log.addRecord crc updates.rep }
    else none
  | .switchMemTable =>
    s.db.switchMemTable.map fun db =>
      { db := db
        logfile_number := s.db.next_file_number
        log := .new
        logs := s.logs ++ [(s.logfile_number, s.log.dest)] }
  | .background action =>
    if action.isBackgroundWork then
      (dbStep o s.db action).map fun db => { s with db := db, logs := s.liveLogs action }
    else none

/-- The files of a closed database.  All tables of the version are there; other tables may be left
over from work that was given up. -/
structure RunningDB.Closed (s : RunningDB) (dir : Directory) : Prop where
  logs : dir.logs = s.logs ++ [(s.logfile_number, s.log.dest)]
  live : ∀ level < kNumLevels, ∀ f ∈ s.db.current level,
    dir.tables f.number = some (s.db.tables f.number)
  intact : ∀ number entries, dir.tables number = some entries → entries ≠ [] ∧
    (entries.Pairwise fun a b => a.1 < b.1) ∧ ∀ e ∈ entries, e.1.sequence ≤ s.db.last_sequence

/-- The memtable whose batches a log holds. -/
def RunningDB.memtable (s : RunningDB) (number : ℕ) : List (Entry Bytes Bytes) :=
  if number = s.logfile_number then s.db.mem else s.db.imm.getD []

/-- There is an entry of the user key. -/
def HoldsKey (u : Bytes) (entries : List (Entry Bytes Bytes)) : Prop :=
  ∃ e ∈ entries, e.1.user_key = u

/-- Where a key is read after a repair: in the last of the memtables that holds it, in the order in
which their logs are listed, or else in the table with the largest number that does. -/
inductive Foremost (tables : ℕ → Option (List (Entry Bytes Bytes)))
    (mems : List (List (Entry Bytes Bytes))) (u : Bytes) : List (Entry Bytes Bytes) → Prop where
  | memtable {before after mem} (hsplit : mems = before ++ mem :: after) (hholds : HoldsKey u mem)
      (hlast : ∀ mem' ∈ after, ¬ HoldsKey u mem') : Foremost tables mems u mem
  | table {number entries} (hmems : ∀ mem ∈ mems, ¬ HoldsKey u mem)
      (htable : tables number = some entries) (hholds : HoldsKey u entries)
      (hlargest : ∀ number' entries', tables number' = some entries' → HoldsKey u entries' →
        number' ≤ number) : Foremost tables mems u entries

/-- Where a key is read after the repair, it reads as before. -/
def RunningDB.ReadsForemost (s : RunningDB) (dir : Directory) (children : Children) : Prop :=
  ∀ u entries, Foremost dir.tables ((children.numbers .kLogFile).map s.memtable) u entries →
    Reads {e | e ∈ entries} u s.db.last_sequence (s.db.get u s.db.last_sequence)

/-! ### Logs and memtables -/

/-- The memtables are sorted, and the logs hold them. -/
structure Logged (crc : Bytes → UInt32) (s : RunningDB) : Prop where
  limit : s.db.last_sequence ≤ kMaxSequenceNumber
  mem_sorted : s.db.mem.Pairwise fun a b => a.1 < b.1
  mem_bounded : ∀ e ∈ s.db.mem, e.1.sequence ≤ s.db.last_sequence
  imm_sorted : ∀ imm, s.db.imm = some imm → imm.Pairwise fun a b => a.1 < b.1
  imm_bounded : ∀ imm, s.db.imm = some imm → ∀ e ∈ imm, e.1.sequence ≤ s.db.last_sequence
  logfile_lt : s.logfile_number < s.db.next_file_number
  mem_log : ∃ bs : List WriteBatch, s.db.mem = memTable (batchesEntries bs) ∧
    s.log = (bs.map WriteBatch.rep).foldl (Log.Writer.addRecord crc) .new
  imm_none : s.db.imm = none → s.logs = []
  imm_log : ∀ imm, s.db.imm = some imm → ∃ number log, s.logs = [(number, log)] ∧
    number < s.logfile_number ∧ HoldsMemTable crc log imm

theorem DBState.compactMemTable_imm {K V : Type*} [LinearOrder K] {o : DBOptions K V}
    {s s' : DBState K V} (hs : s.compactMemTable o = some s') : s'.imm = none := by
  obtain ⟨entries, file, level, -, -, -, rfl⟩ := DBState.compactMemTable_some hs
  rfl

theorem foldl_memTableAdd_sorted {K V : Type*} [LinearOrder K] [Inhabited V]
    {mem : List (Entry K V)} {last : ℕ} (hsorted : mem.Pairwise fun a b => a.1 < b.1)
    (hbounded : ∀ e ∈ mem, e.1.sequence ≤ last) (ops : List (BatchOp K V)) :
    (((batchEntries (last + 1) ops).foldl memTableAdd mem).Pairwise fun a b => a.1 < b.1) ∧
      ∀ e ∈ (batchEntries (last + 1) ops).foldl memTableAdd mem,
        e.1.sequence ≤ last + ops.length := by
  induction ops generalizing mem last with
  | nil => exact ⟨hsorted, hbounded⟩
  | cons op ops ih =>
    obtain ⟨e, he, hcons⟩ := batchEntries_cons (V := V) (last + 1) op ops
    have hadd : ∀ a ∈ memTableAdd mem e, a.1.sequence ≤ last + 1 := by
      intro a ha
      rcases mem_memTableAdd.1 ha with rfl | ha
      · exact he.le
      · exact (hbounded a ha).trans (Nat.le_succ last)
    have hnew : ∀ a ∈ mem, a.1 ≠ e.1 := by
      intro a ha heq
      have := hbounded a ha
      rw [heq, he] at this
      omega
    rw [hcons, foldl_cons, length_cons, Nat.add_comm ops.length, ← Nat.add_assoc]
    exact ih (memTableAdd_sorted hsorted hnew) hadd

namespace Logged

variable {crc : Bytes → UInt32} {o : DBOptions Bytes Bytes} {s s' : RunningDB}

theorem init (crc : Bytes → UInt32) : Logged crc RunningDB.init where
  limit := Nat.zero_le _
  mem_sorted := List.Pairwise.nil
  mem_bounded := fun e he => (by cases he)
  imm_sorted := fun imm himm => (by cases himm)
  imm_bounded := fun imm himm => (by cases himm)
  logfile_lt := by decide
  mem_log := ⟨[], rfl, rfl⟩
  imm_none := fun _ => rfl
  imm_log := fun imm himm => (by cases himm)

theorem write (h : Logged crc s) {batch : WriteBatch}
    (hs : runningStep crc o s (.write batch) = some s') : Logged crc s' := by
  have hsequence : s.db.last_sequence + 1 < 2 ^ 64 := by
    have : kMaxSequenceNumber + 1 < 2 ^ 64 := by decide
    have := h.limit
    omega
  have hupdates := batch.sequence_setSequence hsequence
  simp only [runningStep] at hs
  generalize batch.setSequence (s.db.last_sequence + 1) = updates at hs hupdates
  split_ifs at hs with hok
  obtain ⟨db, hdb, rfl⟩ := map_eq_some_iff.1 hs
  obtain ⟨hlimit, rfl⟩ := DBState.write_some hdb
  obtain ⟨hsorted, hbounded⟩ :=
    foldl_memTableAdd_sorted h.mem_sorted h.mem_bounded updates.iterate.2
  obtain ⟨bs, hmem, hlog⟩ := h.mem_log
  refine
    { h with
      limit := hlimit
      mem_sorted := hsorted
      mem_bounded := hbounded
      imm_bounded := fun imm himm e he =>
        (h.imm_bounded imm himm e he).trans (Nat.le_add_right _ _)
      mem_log := ⟨bs ++ [updates], ?_, ?_⟩ }
  · rw [batchesEntries, flatMap_append, flatMap_singleton, memTable_append,
      WriteBatch.insertInto, hupdates]
    simp only [hmem]
    rfl
  · rw [map_append, foldl_append, ← hlog]
    rfl

theorem holds (h : Logged crc s) : HoldsMemTable crc s.log.dest s.db.mem := by
  obtain ⟨bs, hmem, hlog⟩ := h.mem_log
  refine ⟨bs, ?_, hmem⟩
  rw [hlog, Log.dest_foldl_addRecord]
  rfl

theorem switchMemTable (h : Logged crc s)
    (hs : runningStep crc o s .switchMemTable = some s') : Logged crc s' := by
  obtain ⟨db, hdb, rfl⟩ := map_eq_some_iff.1 hs
  obtain ⟨himm, rfl⟩ := DBState.switchMemTable_some hdb
  refine
    { limit := h.limit
      mem_sorted := List.Pairwise.nil
      mem_bounded := fun e he => (by cases he)
      imm_sorted := fun imm heq => ?_
      imm_bounded := fun imm heq => ?_
      logfile_lt := Nat.lt_succ_self _
      mem_log := ⟨[], rfl, rfl⟩
      imm_none := fun heq => (by cases heq)
      imm_log := fun imm heq => ⟨s.logfile_number, s.log.dest, ?_, h.logfile_lt, ?_⟩ }
  · exact some.inj heq ▸ h.mem_sorted
  · exact some.inj heq ▸ h.mem_bounded
  · rw [h.imm_none himm]
    rfl
  · exact some.inj heq ▸ h.holds

theorem background (h : Logged crc s) {action : DBAction Bytes Bytes}
    (hs : runningStep crc o s (.background action) = some s') : Logged crc s' := by
  simp only [runningStep] at hs
  split_ifs at hs with haction
  obtain ⟨db, hdb, rfl⟩ := map_eq_some_iff.1 hs
  obtain ⟨hmem, hlast, himm, hnext⟩ := dbStep_background haction hdb
  have hframe : ∀ imm, db.imm = some imm → s.db.imm = some imm := by
    intro imm heq
    rcases himm with hsame | ⟨-, hnone⟩
    · exact hsame ▸ heq
    · rw [hnone] at heq
      cases heq
  refine
    { limit := hlast ▸ h.limit
      mem_sorted := hmem ▸ h.mem_sorted
      mem_bounded := by simpa only [hmem, hlast] using h.mem_bounded
      imm_sorted := fun imm heq => h.imm_sorted imm (hframe imm heq)
      imm_bounded := by simpa only [hlast] using fun imm heq => h.imm_bounded imm (hframe imm heq)
      logfile_lt := h.logfile_lt.trans_le hnext
      mem_log := by simpa only [hmem] using h.mem_log
      imm_none := fun hnone => ?_
      imm_log := fun imm heq => ?_ }
  · -- the log of the memtable that has been flushed is gone
    cases hold : s.db.imm with
    | none =>
      have hnil := h.imm_none hold
      cases action <;> simp [RunningDB.liveLogs, hnil]
    | some imm =>
      obtain ⟨number, log, hlogs, hlt, -⟩ := h.imm_log imm hold
      rcases himm with hsame | ⟨rfl, -⟩
      · rw [hsame, hold] at hnone
        cases hnone
      · simp only [RunningDB.liveLogs, hlogs, filter_eq_nil_iff, mem_singleton,
          forall_eq, decide_eq_true_eq, not_le]
        exact hlt
  · have hkeep : s.liveLogs action = s.logs := by
      cases action with
      | compactMemTable =>
        rw [DBState.compactMemTable_imm hdb] at heq
        cases heq
      | _ => rfl
    simp only [hkeep]
    exact h.imm_log imm (hframe imm heq)

theorem step (h : Logged crc s) {a : RunningAction} (hs : runningStep crc o s a = some s') :
    Logged crc s' := by
  cases a with
  | write batch => exact h.write hs
  | switchMemTable => exact h.switchMemTable hs
  | background action => exact h.background hs

theorem of_run {as : List RunningAction}
    (hrun : Steps.run (runningStep crc o) RunningDB.init as = some s) : Logged crc s :=
  Steps.invariant (fun _ _ _ h _ => h.step) (init crc) (Steps.meets_true _ as) hrun

theorem logs_hold (h : Logged crc s) {dir : Directory} (hclosed : s.Closed dir) {number : ℕ}
    {log : Bytes} (hlog : (number, log) ∈ dir.logs) :
    dir.logs.lookup number = some log ∧ HoldsMemTable crc log (s.memtable number) := by
  rw [hclosed.logs] at hlog ⊢
  have hcurrent : s.memtable s.logfile_number = s.db.mem := if_pos rfl
  cases himm : s.db.imm with
  | none =>
    rw [h.imm_none himm, nil_append, mem_singleton, Prod.mk.injEq] at hlog
    obtain ⟨rfl, rfl⟩ := hlog
    rw [h.imm_none himm, hcurrent]
    exact ⟨lookup_cons_self, h.holds⟩
  | some imm =>
    obtain ⟨old, oldLog, hlogs, hlt, hholds⟩ := h.imm_log imm himm
    rw [hlogs, mem_append, mem_singleton, mem_singleton] at hlog
    rcases hlog with hlog | hlog
    · obtain ⟨rfl, rfl⟩ := Prod.mk.inj hlog
      rw [hlogs, RunningDB.memtable, if_neg hlt.ne, himm]
      exact ⟨lookup_cons_self, hholds⟩
    · obtain ⟨rfl, rfl⟩ := Prod.mk.inj hlog
      rw [hlogs, hcurrent]
      refine ⟨?_, h.holds⟩
      have hne : (s.logfile_number == old) = false := beq_eq_false_iff_ne.2 hlt.ne'
      simp [lookup_cons, hne]

end Logged

/-! ### Reads at level 0 -/

/-- In a list sorted by falling numbers, the first answer is that of the largest number with an
answer. -/
theorem findSome?_of_largest {α β : Type*} (number : α → ℕ) {f : α → Option β} {l : List α} {a : α}
    (hsorted : l.Pairwise fun x y => number y ≤ number x) (ha : a ∈ l) {b : β} (hb : f a = some b)
    (hlargest : ∀ x ∈ l, ∀ y, f x = some y → number x ≤ number a)
    (hsame : ∀ x ∈ l, number x = number a → f x = f a) : l.findSome? f = some b := by
  induction l with
  | nil => cases ha
  | cons x l ih =>
    obtain ⟨hhead, htail⟩ := pairwise_cons.1 hsorted
    rw [List.findSome?_cons]
    rcases mem_cons.1 ha with rfl | ha
    · rw [hb]
    · cases hx : f x with
      | some y =>
        have heq : number x = number a :=
          le_antisymm (hlargest x mem_cons_self y hx) (hhead a ha)
        exact hx.symm.trans ((hsame x mem_cons_self heq).trans hb)
      | none =>
        exact ih htail ha (fun z hz => hlargest z (mem_cons_of_mem x hz))
          fun z hz => hsame z (mem_cons_of_mem x hz)

theorem holdsKey_of_tableLookup {entries : List (Entry Bytes Bytes)} {u : Bytes} {snapshot : ℕ}
    {e : Entry Bytes Bytes} (h : tableLookup entries u snapshot = some e) : HoldsKey u entries := by
  obtain ⟨hfind, huser⟩ := filter_eq_some_iff.1 h
  exact ⟨e, mem_of_find?_eq_some hfind, by simpa using huser⟩

/-- The file with the largest number that holds the key. -/
structure Largest (files : List (ℕ × List (Entry Bytes Bytes))) (u : Bytes)
    (p : ℕ × List (Entry Bytes Bytes)) : Prop where
  mem : p ∈ files
  holds : HoldsKey u p.2
  largest : ∀ q ∈ files, HoldsKey u q.2 → q.1 ≤ p.1

namespace AtLevelZero

variable {db : DBState Bytes Bytes} {files : List (ℕ × List (Entry Bytes Bytes))} {u : Bytes}
  {p : ℕ × List (Entry Bytes Bytes)}

theorem getEntry_eq (h : AtLevelZero db files) (snapshot : ℕ) :
    db.getEntry u snapshot = (filesToSearch db.current u (lookupKey u snapshot) 0).findSome?
      fun f => tableLookup (db.tables f.number) u snapshot := by
  have hdeeper : ∀ level, filesToSearch db.current u (lookupKey u snapshot) (level + 1) = [] :=
    fun level => eq_nil_iff_forall_not_mem.2 fun f hf => by
      have := mem_filesToSearch hf
      rw [h.deeper _ (Nat.succ_ne_zero level)] at this
      cases this
  have horder : searchOrder db.current u (lookupKey u snapshot) =
      (filesToSearch db.current u (lookupKey u snapshot) 0).map (0, ·) := by
    have hrange : List.range kNumLevels = 0 :: (List.range 6).map (· + 1) := by decide
    rw [searchOrder, hrange, flatMap_cons, flatMap_map]
    simp only [hdeeper, map_nil, flatMap_eq_nil_iff.2 fun _ _ => rfl, append_nil]
  rw [DBState.getEntry, h.mem, h.imm, versionLookup, horder, List.findSome?_map]
  rfl

theorem get_eq_none (h : AtLevelZero db files) (hnone : ∀ p ∈ files, ¬ HoldsKey u p.2)
    (snapshot : ℕ) : db.get u snapshot = none := by
  have : db.getEntry u snapshot = none := by
    rw [h.getEntry_eq]
    refine List.findSome?_eq_none_iff.2 fun f hf => ?_
    by_contra hsome
    obtain ⟨e, he⟩ := ne_none_iff_exists'.1 hsome
    exact hnone _ (h.file f (mem_filesToSearch hf)) (holdsKey_of_tableLookup he)
  rw [DBState.get, this]
  rfl

/-- **`Get` reads the file with the largest number that holds the key.** -/
theorem reads_iff (h : AtLevelZero db files) (hp : Largest files u p) (r : Option Bytes) :
    Reads {e | e ∈ p.2} u db.last_sequence r ↔ r = db.get u db.last_sequence := by
  obtain ⟨f, hf, hnumber, htables⟩ := h.complete p hp.mem
  have htable := h.table f hf
  rw [htables] at htable
  obtain ⟨e, he, huser⟩ := hp.holds
  obtain ⟨found, hfound, -⟩ := exists_tableLookup htable.sorted he huser (h.bounded p hp.mem e he)
  have hholds : f.Holds u :=
    ⟨huser ▸ InternalKey.user_key_le (htable.range e he).1,
      huser ▸ InternalKey.user_key_le (htable.range e he).2⟩
  have hget : db.getEntry u db.last_sequence = some found := by
    rw [h.getEntry_eq]
    refine findSome?_of_largest FileMetaData.number (a := f) ?_ ?_ ?_ ?_ ?_
    · have : Std.Total fun f g : FileMetaData Bytes => g.number ≤ f.number :=
        ⟨fun f g => Nat.le_total g.number f.number⟩
      have : IsTrans (FileMetaData Bytes) fun f g => g.number ≤ f.number :=
        ⟨fun _ _ _ hab hbc => Nat.le_trans hbc hab⟩
      exact pairwise_insertionSort (fun f g : FileMetaData Bytes => g.number ≤ f.number) _
    · rw [filesToSearch, mem_insertionSort]
      exact mem_filter.2 ⟨hf, decide_eq_true hholds⟩
    · rw [htables]
      exact hfound
    · intro g hg x hx
      rw [hnumber]
      exact hp.largest _ (h.file g (mem_filesToSearch hg)) (holdsKey_of_tableLookup hx)
    · intro g _ heq
      rw [heq]
  have hfinds := tableLookup_finds (u := u) (s := db.last_sequence) htable.sorted
  rw [DBState.get, hget, ← hfound]
  exact hfinds.reads_iff (fun a ha b hb heq => eq_of_sorted htable.sorted ha hb heq) r

end AtLevelZero

/-! ### Where a key is read -/

section

variable {children : Children} {dir : Directory} {mems : List (List (Entry Bytes Bytes))}
  {u : Bytes} {entries : List (Entry Bytes Bytes)}

theorem mem_convertedFiles {next : ℕ} {p : ℕ × List (Entry Bytes Bytes)} :
    p ∈ convertedFiles next mems ↔ p.2 ≠ [] ∧ ∃ i, p.1 = next + i ∧ mems[i]? = some p.2 := by
  induction mems generalizing next with
  | nil => simp [convertedFiles]
  | cons mem mems ih =>
    have hrest : p ∈ convertedFiles (next + 1) mems ↔
        p.2 ≠ [] ∧ ∃ i, p.1 = next + (i + 1) ∧ (mem :: mems)[i + 1]? = some p.2 := by
      rw [ih]
      simp only [List.getElem?_cons_succ, Nat.add_assoc, Nat.add_comm 1]
    rw [convertedFiles]
    split_ifs with hnil
    · rw [hrest]
      refine and_congr_right fun hne => ⟨?_, ?_⟩
      · rintro ⟨i, hi⟩
        exact ⟨i + 1, hi⟩
      rintro ⟨_ | i, hi⟩
      · rw [List.getElem?_cons_zero, Option.some.injEq] at hi
        exact absurd (hi.2.symm.trans hnil) hne
      · exact ⟨i, hi⟩
    · rw [mem_cons, hrest]
      constructor
      · rintro (rfl | ⟨hne, i, hi⟩)
        · exact ⟨hnil, 0, rfl, rfl⟩
        · exact ⟨hne, i + 1, hi⟩
      · rintro ⟨hne, _ | i, hi⟩
        · rw [List.getElem?_cons_zero, Option.some.injEq] at hi
          exact Or.inl (Prod.ext hi.1 hi.2.symm)
        · exact Or.inr ⟨hne, i, hi⟩

theorem HoldsKey.ne_nil (h : HoldsKey u entries) : entries ≠ [] := by
  obtain ⟨e, he, -⟩ := h
  exact ne_nil_of_mem he

/-- **The foremost holder of a key becomes the one with the largest number.** -/
theorem Foremost.largest (hlist : dir.Lists children) (h : Foremost dir.tables mems u entries) :
    ∃ number, Largest (repairedFiles children dir.tables mems) u (number, entries) := by
  cases h with
  | @memtable before after _ hsplit hholds hlast =>
    refine ⟨children.nextFileNumber + before.length, (mem_repairedFiles hlist).2 (Or.inr ?_),
      hholds, fun q hq hqholds => ?_⟩
    · refine mem_convertedFiles.2 ⟨hholds.ne_nil, before.length, rfl, ?_⟩
      rw [hsplit]
      simp
    · rcases (mem_repairedFiles hlist).1 hq with hq | hq
      · have := hlist.lt_next hq
        exact (Nat.le_of_lt this).trans (Nat.le_add_right _ _)
      · obtain ⟨-, i, hi, hget⟩ := mem_convertedFiles.1 hq
        rw [hi]
        refine Nat.add_le_add_left ?_ _
        by_contra hlt
        refine hlast q.2 ?_ hqholds
        rw [hsplit, List.getElem?_append_right (by omega)] at hget
        obtain ⟨j, hj⟩ : ∃ j, i - before.length = j + 1 := ⟨i - before.length - 1, by omega⟩
        rw [hj, List.getElem?_cons_succ] at hget
        exact mem_of_getElem? hget
  | @table number _ hmems htable hholds hlargest =>
    refine ⟨number, (mem_repairedFiles hlist).2 (Or.inl htable), hholds, fun q hq hqholds => ?_⟩
    rcases (mem_repairedFiles hlist).1 hq with hq | hq
    · exact hlargest q.1 q.2 hq hqholds
    · obtain ⟨-, i, -, hget⟩ := mem_convertedFiles.1 hq
      exact absurd hqholds (hmems q.2 (mem_of_getElem? hget))

theorem Largest.foremost (hlist : dir.Lists children) {p : ℕ × List (Entry Bytes Bytes)}
    (h : Largest (repairedFiles children dir.tables mems) u p) :
    Foremost dir.tables mems u p.2 := by
  have hconverted : ∀ i mem, mems[i]? = some mem → HoldsKey u mem →
      children.nextFileNumber + i ≤ p.1 := fun i mem hget hholds =>
    h.largest (children.nextFileNumber + i, mem) ((mem_repairedFiles hlist).2
      (Or.inr (mem_convertedFiles.2 ⟨hholds.ne_nil, i, rfl, hget⟩))) hholds
  rcases (mem_repairedFiles hlist).1 h.mem with htable | hmem
  · refine .table (fun mem hmem hholds => ?_) htable h.holds fun number entries hentries hholds =>
      h.largest (number, entries) ((mem_repairedFiles hlist).2 (Or.inl hentries)) hholds
    obtain ⟨i, hi⟩ := mem_iff_getElem?.1 hmem
    have := hconverted i mem hi hholds
    have := hlist.lt_next htable
    omega
  · obtain ⟨-, i, hi, hget⟩ := mem_convertedFiles.1 hmem
    obtain ⟨hlt, hget'⟩ := List.getElem?_eq_some_iff.1 hget
    have hsplit : mems = mems.take i ++ p.2 :: mems.drop (i + 1) := by
      rw [← hget', getElem_cons_drop, take_append_drop]
    refine .memtable hsplit h.holds fun mem hmem hholds => ?_
    obtain ⟨j, hj⟩ := mem_iff_getElem?.1 hmem
    rw [List.getElem?_drop] at hj
    have := hconverted _ mem hj hholds
    omega

theorem exists_largest {files : List (ℕ × List (Entry Bytes Bytes))}
    {q : ℕ × List (Entry Bytes Bytes)} (hq : q ∈ files) (hholds : HoldsKey u q.2) :
    ∃ p, Largest files u p := by
  obtain ⟨p, hp, hmax⟩ := Set.exists_max_image {p | p ∈ files ∧ HoldsKey u p.2} Prod.fst
    (files.finite_toSet.subset fun p hp => hp.1) ⟨q, hq, hholds⟩
  exact ⟨p, hp.1, hp.2, fun q hq hholds => hmax q ⟨hq, hholds⟩⟩

end

/-! ### Repairs of closed databases -/

theorem Logged.get_eq_none {crc : Bytes → UInt32} {s : RunningDB} (h : Logged crc s)
    {dir : Directory} (hclosed : s.Closed dir) {children : Children} (hlist : dir.Lists children)
    {u : Bytes}
    (hnone : ∀ p ∈ repairedFiles children dir.tables ((children.numbers .kLogFile).map s.memtable),
      ¬ HoldsKey u p.2) (snapshot : ℕ) : s.db.get u snapshot = none := by
  have htable : ∀ number entries, dir.tables number = some entries → ¬ HoldsKey u entries :=
    fun number entries hentries =>
      hnone (number, entries) ((mem_repairedFiles hlist).2 (Or.inl hentries))
  have hlog : ∀ number log, (number, log) ∈ dir.logs → ¬ HoldsKey u (s.memtable number) := by
    intro number log hlog hholds
    have hnumber := Children.mem_numbers.2 ((hlist.log number).2 ⟨log, hlog⟩)
    obtain ⟨i, hi⟩ := mem_iff_getElem?.1 (mem_map_of_mem (f := s.memtable) hnumber)
    exact hnone (children.nextFileNumber + i, s.memtable number) ((mem_repairedFiles hlist).2
      (Or.inr (mem_convertedFiles.2 ⟨hholds.ne_nil, i, rfl, hi⟩))) hholds
  have hmem : tableLookup s.db.mem u snapshot = none := by
    by_contra hsome
    obtain ⟨e, he⟩ := ne_none_iff_exists'.1 hsome
    refine hlog s.logfile_number s.log.dest ?_ ?_
    · rw [hclosed.logs]
      exact mem_append_right _ mem_cons_self
    · rw [RunningDB.memtable, if_pos rfl]
      exact holdsKey_of_tableLookup he
  have himm : (s.db.imm.bind fun imm => tableLookup imm u snapshot) = none := by
    by_contra hsome
    obtain ⟨e, he⟩ := ne_none_iff_exists'.1 hsome
    obtain ⟨imm, himm, he⟩ := bind_eq_some_iff.1 he
    obtain ⟨number, log, hlogs, hlt, -⟩ := h.imm_log imm himm
    refine hlog number log ?_ ?_
    · rw [hclosed.logs, hlogs]
      exact mem_append_left _ mem_cons_self
    · rw [RunningDB.memtable, if_neg hlt.ne, himm]
      exact holdsKey_of_tableLookup he
  have hversion : versionLookup s.db.tables s.db.current u snapshot = none := by
    refine List.findSome?_eq_none_iff.2 fun p hp => ?_
    by_contra hsome
    obtain ⟨e, he⟩ := ne_none_iff_exists'.1 hsome
    obtain ⟨hlevel, hfile⟩ := mem_searchOrder.1 hp
    exact htable _ _ (hclosed.live p.1 hlevel p.2 (mem_filesToSearch hfile))
      (holdsKey_of_tableLookup he)
  rw [DBState.get, DBState.getEntry, hmem, himm, hversion]
  rfl

/-- **Repair and open a closed database**: the tables are those of the directory and those made of
the memtables. -/
theorem Logged.repair {crc : Bytes → UInt32} {o : DBOptions Bytes Bytes} (ho : o.TablesHaveSize)
    (ro : RecoveryOptions) {s : RunningDB} (h : Logged crc s) {dir : Directory}
    (hclosed : s.Closed dir) {children : Children} (hlist : dir.Lists children) :
    ∃ dir' t, repairDB crc o children dir = some (.ok dir') ∧
      openDB crc o ro dir' = some (.ok t) ∧ AtLevelZero t.db
        (repairedFiles children dir.tables ((children.numbers .kLogFile).map s.memtable)) := by
  have hne : dir.logs ≠ [] := by
    rw [hclosed.logs]
    exact append_ne_nil_of_right_ne_nil _ (cons_ne_nil _ _)
  obtain ⟨dir', infos, hrepair, hmanifest, hlogs, htables, hscan⟩ := repairDB_eq crc ho
    hlist hne (fun number log hlog => h.logs_hold hclosed hlog)
    fun number entries hentries => (hclosed.intact number entries hentries).1
  have hsorted : ∀ number, (s.memtable number).Pairwise fun a b => a.1 < b.1 := by
    intro number
    rw [RunningDB.memtable]
    split_ifs
    · exact h.mem_sorted
    · cases himm : s.db.imm with
      | none => exact List.Pairwise.nil
      | some imm => exact h.imm_sorted imm himm
  have hscanned : Scanned o _ infos :=
    { scan := hscan
      once := nodup_repairedFiles hlist
      intact := fun p hp => by
        rcases (mem_repairedFiles hlist).1 hp with hp | hp
        · obtain ⟨hne, hsorted, -⟩ := hclosed.intact p.1 p.2 hp
          exact ⟨hne, hsorted⟩
        · obtain ⟨hne, i, -, hget⟩ := mem_convertedFiles.1 hp
          obtain ⟨number, -, heq⟩ := mem_map.1 (mem_of_getElem? hget)
          exact ⟨hne, heq ▸ hsorted number⟩ }
  obtain ⟨t, hopen, ht⟩ := openDB_repaired crc ro hmanifest hlogs htables hscanned
  exact ⟨dir', t, hrepair, hopen, ht⟩

theorem Logged.bounded {crc : Bytes → UInt32} {s : RunningDB} (h : Logged crc s) {dir : Directory}
    (hclosed : s.Closed dir) {children : Children} (hlist : dir.Lists children) :
    ∀ p ∈ repairedFiles children dir.tables ((children.numbers .kLogFile).map s.memtable),
      ∀ e ∈ p.2, e.1.sequence ≤ s.db.last_sequence := by
  intro p hp e he
  rcases (mem_repairedFiles hlist).1 hp with hp | hp
  · exact (hclosed.intact p.1 p.2 hp).2.2 e he
  · obtain ⟨-, i, -, hget⟩ := mem_convertedFiles.1 hp
    obtain ⟨number, -, heq⟩ := mem_map.1 (mem_of_getElem? hget)
    rw [← heq, RunningDB.memtable] at he
    split_ifs at he
    · exact h.mem_bounded e he
    · cases himm : s.db.imm with
      | none =>
        rw [himm] at he
        cases he
      | some imm =>
        rw [himm] at he
        exact h.imm_bounded imm himm e he

/-- **After a repair `Get` returns what it returned before if and only if** every key reads as
before where the repair makes it be read: in the last log that holds it, or else in the table with
the largest number that does. -/
theorem get_repaired_iff (crc : Bytes → UInt32) (o : DBOptions Bytes Bytes) (ro : RecoveryOptions)
    (ho : o.TablesHaveSize) (as : List RunningAction) (s : RunningDB)
    (hrun : Steps.run (runningStep crc o) RunningDB.init as = some s) (dir : Directory)
    (hclosed : s.Closed dir) (children : Children) (hlist : dir.Lists children) :
    ∃ dir' t, repairDB crc o children dir = some (.ok dir') ∧
      openDB crc o ro dir' = some (.ok t) ∧
      ((∀ u, t.db.get u t.db.last_sequence = s.db.get u s.db.last_sequence) ↔
        s.ReadsForemost dir children) := by
  have h := Logged.of_run hrun
  obtain ⟨dir', t, hrepair, hopen, ht⟩ := h.repair ho ro hclosed hlist
  refine ⟨dir', t, hrepair, hopen, ?_⟩
  have hlast : t.db.last_sequence ≤ s.db.last_sequence := ht.least _ (h.bounded hclosed hlist)
  have hreads : ∀ {u p}, Largest (repairedFiles children dir.tables
      ((children.numbers .kLogFile).map s.memtable)) u p → ∀ r,
        Reads {e | e ∈ p.2} u s.db.last_sequence r ↔ r = t.db.get u t.db.last_sequence :=
    fun hp r => (reads_of_bounded (ht.bounded _ hp.mem) hlast r).trans (ht.reads_iff hp r)
  constructor
  · intro hsame u entries hforemost
    obtain ⟨number, hlargest⟩ := hforemost.largest hlist
    exact (hreads hlargest _).2 (hsame u).symm
  · intro hforemost u
    by_cases hheld : ∃ q ∈ repairedFiles children dir.tables
        ((children.numbers .kLogFile).map s.memtable), HoldsKey u q.2
    · obtain ⟨q, hq, hholds⟩ := hheld
      obtain ⟨p, hp⟩ := exists_largest hq hholds
      exact ((hreads hp _).1 (hforemost u p.2 (hp.foremost hlist))).symm
    · have hnone : ∀ q ∈ repairedFiles children dir.tables
          ((children.numbers .kLogFile).map s.memtable), ¬ HoldsKey u q.2 := fun q hq hholds =>
        hheld ⟨q, hq, hholds⟩
      rw [ht.get_eq_none hnone, h.get_eq_none hclosed hlist hnone]

/-! ### Runs -/

namespace RepairRun

/-- No record fills the memtable. -/
def recoveryOptions : RecoveryOptions := ⟨true, 4194304, List.length⟩

theorem tablesHaveSize : smallTables.TablesHaveSize := fun entries _ => by
  simp only [smallTables]
  omega

/-- Write the key `k` with a value of one byte. -/
def write (value : UInt8) : RunningAction := .write (WriteBatch.new.put [107] [value])

/-- Flush the memtable. -/
def flush : List RunningAction := [.switchMemTable, .background .compactMemTable]

/-- The key is flushed to levels 2, 1 and 0.  Then the file of level 1 has had too many seeks, and
is merged with the file of level 2. -/
def stale : List RunningAction :=
  [write 1] ++ flush ++ [write 2] ++ flush ++ [write 3] ++ flush ++
    [.background (.automaticCompaction
      (some (1, ⟨7, 124, ⟨[107], 2, .value⟩, ⟨[107], 2, .value⟩⟩)) 3),
    .background .compactEntry, .background .compactEntry, .background .installCompactionResults]

/-- The files of a closed database with these tables. -/
def directory (s : RunningDB) (numbers : List ℕ) : Directory :=
  { manifest := []
    logs := s.logs ++ [(s.logfile_number, s.log.dest)]
    tables := fun number => if number ∈ numbers then some (s.db.tables number) else none
    others := [] }

/-- A listing of its files. -/
def listing (s : RunningDB) (numbers : List ℕ) : Children :=
  [none, some (.kCurrentFile, 0), some (.kDescriptorFile, 2)] ++
    (s.logs ++ [(s.logfile_number, s.log.dest)]).map (fun p => some (.kLogFile, p.1)) ++
    numbers.map fun number => some (.kTableFile, number)

/-- The tables are the files of the version, and each file is named once. -/
def Complete (s : RunningDB) (numbers : List ℕ) : Prop :=
  (∀ level < kNumLevels, ∀ f ∈ s.db.current level, f.number ∈ numbers) ∧
    (∀ number ∈ numbers, s.db.tables number ≠ [] ∧
      ((s.db.tables number).Pairwise fun a b => a.1 < b.1) ∧
      ∀ e ∈ s.db.tables number, e.1.sequence ≤ s.db.last_sequence) ∧
    ((listing s numbers).filterMap id).Nodup

instance (s : RunningDB) (numbers : List ℕ) : Decidable (Complete s numbers) :=
  inferInstanceAs (Decidable (_ ∧ _ ∧ _))

theorem Complete.closed {s : RunningDB} {numbers : List ℕ} (h : Complete s numbers) :
    s.Closed (directory s numbers) where
  logs := rfl
  live := fun level hlevel f hf => if_pos (h.1 level hlevel f hf)
  intact := fun number entries hentries => by
    simp only [directory] at hentries
    split_ifs at hentries with hnumber
    obtain rfl := some.inj hentries
    exact h.2.1 number hnumber

theorem Complete.lists {s : RunningDB} {numbers : List ℕ} (h : Complete s numbers) :
    (directory s numbers).Lists (listing s numbers) where
  table := fun number => by simp [directory, listing]
  log := fun number => by simp [directory, listing, exists_or]
  once := h.2.2

/-- Run, close, repair and open. -/
def reopen (as : List RunningAction) (numbers : List ℕ) : Option (RunningDB × LoggedDB) :=
  (Steps.run (runningStep zeroCrc smallTables) RunningDB.init as).bind fun s =>
    match repairDB zeroCrc smallTables (listing s numbers) (directory s numbers) with
    | some (.ok dir) =>
      match openDB zeroCrc smallTables recoveryOptions dir with
      | some (.ok t) => some (s, t)
      | _ => none
    | _ => none

theorem reopen_spec {as : List RunningAction} {numbers : List ℕ} {s : RunningDB} {t : LoggedDB}
    (h : reopen as numbers = some (s, t)) :
    Steps.run (runningStep zeroCrc smallTables) RunningDB.init as = some s ∧ ∃ dir,
      repairDB zeroCrc smallTables (listing s numbers) (directory s numbers) = some (.ok dir) ∧
      openDB zeroCrc smallTables recoveryOptions dir = some (.ok t) := by
  obtain ⟨s', hrun, h⟩ := bind_eq_some_iff.1 h
  split at h
  case h_1 dir hrepair =>
    split at h
    case h_1 t' hopen =>
      obtain ⟨rfl, rfl⟩ := Prod.mk.inj (some.inj h)
      exact ⟨hrun, dir, hrepair, hopen⟩
    case h_2 => cases h
  case h_2 => cases h

end RepairRun

open RepairRun in
theorem get_repaired_iff_flushed :
    ∃ s, Steps.run (runningStep zeroCrc smallTables) RunningDB.init
        ([write 1] ++ flush ++ [write 2]) =
        some s ∧ s.Closed (directory s [5]) ∧ (directory s [5]).Lists (listing s [5]) ∧
      ∃ dir t, repairDB zeroCrc smallTables (listing s [5]) (directory s [5]) = some (.ok dir) ∧
        openDB zeroCrc smallTables recoveryOptions dir = some (.ok t) ∧
        ((∀ u, t.db.get u t.db.last_sequence = s.db.get u s.db.last_sequence) ↔
          s.ReadsForemost (directory s [5]) (listing s [5])) := by
  have h : (Steps.run (runningStep zeroCrc smallTables) RunningDB.init
      ([write 1] ++ flush ++ [write 2])).map (fun s => decide (RepairRun.Complete s [5])) =
      some true := by
    decide +kernel
  obtain ⟨s, hs, hcomplete⟩ := map_eq_some_iff.1 h
  have hcomplete := of_decide_eq_true hcomplete
  exact ⟨s, hs, hcomplete.closed, hcomplete.lists,
    get_repaired_iff zeroCrc smallTables recoveryOptions tablesHaveSize _ s hs _ hcomplete.closed _
      hcomplete.lists⟩

open RepairRun in
/-- **After a repair `Get` may return an older value**: the compaction has written the second value
to a file with a larger number than that of the third. -/
theorem get_repaired_stale :
    ∃ s dir t, Steps.run (runningStep zeroCrc smallTables) RunningDB.init stale = some s ∧
      s.Closed (directory s [9, 10]) ∧ (directory s [9, 10]).Lists (listing s [9, 10]) ∧
      repairDB zeroCrc smallTables (listing s [9, 10]) (directory s [9, 10]) = some (.ok dir) ∧
      openDB zeroCrc smallTables recoveryOptions dir = some (.ok t) ∧
      s.db.get [107] s.db.last_sequence = some [3] ∧
      t.db.get [107] t.db.last_sequence = some [2] := by
  have h : (reopen stale [9, 10]).map (fun p => (decide (RepairRun.Complete p.1 [9, 10]),
      p.1.db.get [107] p.1.db.last_sequence, p.2.db.get [107] p.2.db.last_sequence)) =
      some (true, some [3], some [2]) := by decide +kernel
  obtain ⟨⟨s, t⟩, hreopen, heq⟩ := map_eq_some_iff.1 h
  obtain ⟨hcomplete, heq⟩ := Prod.mk.inj heq
  obtain ⟨hbefore, hafter⟩ := Prod.mk.inj heq
  have hcomplete : RepairRun.Complete s [9, 10] := of_decide_eq_true hcomplete
  obtain ⟨hrun, dir, hrepair, hopen⟩ := reopen_spec hreopen
  exact ⟨s, dir, t, hrun, hcomplete.closed, hcomplete.lists, hrepair, hopen, hbefore, hafter⟩

end Bourbon
