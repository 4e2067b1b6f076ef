import Bourbon.Mod.Vlog
import Bourbon.Db.Refinement

/-!
# Key-value separation

With `MOD >= 7` the database stores addresses.  `Put` appends the value to the value log and writes
the address and the size of the value under the key, and `Get` resolves what it finds.  `Write`
takes a batch as it is.

* `Resolves` : the invariant.  What is stored under a key is the address of its value in the log;
* `get_of_separatedRun` : `Get` returns what was written last, if no batch has a `Put`;
* `get_of_written_batch` : the value of a `Put` in a batch is taken for an address.

Reads are those without models (`DBState.get`).
-/

namespace Bourbon

open Option

/-- The work of the background thread, as long as there are no snapshots and nobody asks for a
manual compaction. -/
inductive Background where
  | switchMemTable
  | compactMemTable
  | automaticCompaction (file_to_compact : Option (ℕ × FileMetaData Bytes))
  | compactEntry
  | installCompactionResults
  | abortCompaction

/-- The step of the database.  The last sequence number is the oldest snapshot. -/
def Background.action (s : DBState Bytes Bytes) : Background → DBAction Bytes Bytes
  | .switchMemTable => .switchMemTable
  | .compactMemTable => .compactMemTable
  | .automaticCompaction file_to_compact => .automaticCompaction file_to_compact s.last_sequence
  | .compactEntry => .compactEntry
  | .installCompactionResults => .installCompactionResults
  | .abortCompaction => .abortCompaction

/-- The database with its value log. -/
structure SeparatedDB where
  db : DBState Bytes Bytes
  vlog : VLog

/-- What `Put` stores under the key. -/
def storedValue (value_address size : ℕ) : Bytes :=
  encodeFixed64 value_address ++ encodeFixed32 size

namespace SeparatedDB

/-- `DBImpl::Put` with `MOD >= 7`. -/
def put (s : SeparatedDB) (key val : Bytes) : Option SeparatedDB :=
  let r := s.vlog.addRecord key val
  (s.db.write [.put key (storedValue r.1 val.length)]).map fun db => ⟨db, r.2⟩

/-- `DBImpl::Write`. -/
def write (s : SeparatedDB) (updates : List (BatchOp Bytes Bytes)) : Option SeparatedDB :=
  (s.db.write updates).map fun db => { s with db := db }

/-- `DBImpl::Delete`. -/
def delete (s : SeparatedDB) (key : Bytes) : Option SeparatedDB := s.write [.delete key]

/-- `DBImpl::Get` with `MOD >= 7`, on the read path without models. -/
def get (s : SeparatedDB) (key : Bytes) : Option (Option Bytes) :=
  s.vlog.resolve (s.db.get key s.db.last_sequence)

end SeparatedDB

/-- Calls of clients, and background work. -/
inductive SeparatedAction where
  | put (key val : Bytes)
  | delete (key : Bytes)
  | write (updates : List (BatchOp Bytes Bytes))
  | background (work : Background)

/-- One step. -/
def separatedStep (o : DBOptions Bytes Bytes) (s : SeparatedDB) :
    SeparatedAction → Option SeparatedDB
  | .put key val => s.put key val
  | .delete key => s.delete key
  | .write updates => s.write updates
  | .background work => (dbStep o s.db (work.action s.db)).map fun db => { s with db := db }

/-- What the caller wants to be written. -/
def SeparatedAction.ops : SeparatedAction → List (BatchOp Bytes Bytes)
  | .put key val => [.put key val]
  | .delete key => [.delete key]
  | .write updates => updates
  | .background _ => []

/-- A deletion. -/
def BatchOp.isDelete {K V : Type*} : BatchOp K V → Bool
  | .put _ _ => false
  | .delete _ => true

/-- Values are written by `Put` only.  Sizes, addresses and sequence numbers stay in their range. -/
def PutsAlone (s : SeparatedDB) : SeparatedAction → Prop
  | .put key val => val.length < 2 ^ 32 ∧ (s.vlog.addRecord key val).1 < 2 ^ 64 ∧
      s.db.last_sequence + 1 < kMaxSequenceNumber
  | .delete _ => s.db.last_sequence + 1 < kMaxSequenceNumber
  | .write updates => updates.all BatchOp.isDelete = true ∧
      s.db.last_sequence + updates.length < kMaxSequenceNumber
  | .background _ => True

instance (s : SeparatedDB) (a : SeparatedAction) : Decidable (PutsAlone s a) := by
  cases a <;> unfold PutsAlone <;> infer_instance

/-! ### The background thread -/

/-- The compaction that is running, if any, is an automatic one. -/
def Automatic {K V : Type*} (s : DBState K V) : Prop :=
  ∀ st, s.compact = some st → st.is_manual = false

section

variable {o : DBOptions Bytes Bytes} {s s' : DBState Bytes Bytes}

theorem Automatic.flushApart (h : Automatic s) (a : DBAction Bytes Bytes) : FlushApart o s a := by
  cases a with
  | compactMemTable =>
    unfold FlushApart
    cases hst : s.compact with
    | none => trivial
    | some st =>
      cases s.imm.bind (o.fileMetaData s.next_file_number) with
      | none => trivial
      | some file => exact fun hm => absurd (hm.symm.trans (h st hst)) (by decide)
  | _ => trivial

theorem Automatic.noSnapshot (h : Automatic s) (work : Background) :
    NoSnapshot o s (work.action s) := by
  refine ⟨h.flushApart _, ?_⟩
  cases work with
  | automaticCompaction file_to_compact => exact rfl
  | _ => trivial

theorem Automatic.write (h : Automatic s) {updates : List (BatchOp Bytes Bytes)}
    (hs : s.write updates = some s') : Automatic s' := by
  obtain ⟨-, rfl⟩ := DBState.write_some hs
  exact h

/-- The start of a manual compaction. -/
def DBAction.isManual {K V : Type*} : DBAction K V → Bool
  | .manualCompaction _ _ _ _ => true
  | _ => false

/-- **Only a manual compaction is not automatic.** -/
theorem Automatic.step (h : Automatic s) (hf : Consistent o s) {a : DBAction Bytes Bytes}
    (hauto : a.isManual = false) (hs : dbStep o s a = some s') : Automatic s' := by
  cases a with
  | write batch => exact h.write hs
  | manualCompaction level start limit smallest_snapshot => cases hauto
  | switchMemTable =>
    obtain ⟨-, rfl⟩ := DBState.switchMemTable_some hs
    exact h
  | compactMemTable =>
    obtain ⟨_, _, _, -, -, -, rfl⟩ := DBState.compactMemTable_some hs
    exact h
  | automaticCompaction file_to_compact smallest_snapshot =>
    obtain ⟨c, hidle, -, -, -, ⟨-, rfl⟩ | rfl⟩ := automaticCompaction_inv hf.arranged hs
    · exact h
    · intro st hst
      obtain rfl := some.inj hst
      rfl
  | compactEntry =>
    obtain ⟨st, e, rest, hst, hinput⟩ := DBState.compactEntry_some hs
    obtain ⟨s₁, st₁, hs₁, hround⟩ := compactEntry_round (hf.working st hst).building hst hinput
    obtain rfl := some.inj (hs₁.symm.trans hs)
    intro st' hst'
    obtain rfl := some.inj (hround.compact.symm.trans hst')
    exact hround.is_manual.trans (h st hst)
  | installCompactionResults =>
    obtain ⟨st, -, -, rfl⟩ := DBState.installCompactionResults_some hs
    exact fun st' hst' => (by cases hst')
  | abortCompaction =>
    obtain rfl := some.inj hs
    exact fun st' hst' => (by cases hst')

end

/-! ### Addresses -/

/-- What is stored under a key leads to its value in the log. -/
def PointsTo (v : VLog) : Option Bytes → Option Bytes → Prop
  | some stored, some val => ∃ address, stored = storedValue address val.length ∧
      address < 2 ^ 64 ∧ val.length < 2 ^ 32 ∧ v.Holds address val
  | none, none => True
  | _, _ => False

theorem PointsTo.step {v : VLog} {stored val : Option Bytes} (h : PointsTo v stored val)
    (op : VLogOp) : PointsTo (v.step op) stored val := by
  cases stored with
  | none =>
    cases val with
    | none => trivial
    | some val => exact h.elim
  | some stored =>
    cases val with
    | none => exact h.elim
    | some val =>
      obtain ⟨address, heq, haddress, hval, hholds⟩ := h
      exact ⟨address, heq, haddress, hval, hholds.step op⟩

theorem length_storedValue (address size : ℕ) : (storedValue address size).length = 12 := by
  simp [storedValue, encodeFixed64, encodeFixed32]

theorem decode_storedValue {address size : ℕ} (haddress : address < 2 ^ 64)
    (hsize : size < 2 ^ 32) : decodeFixed64 (storedValue address size) = address ∧
      decodeFixed32 ((storedValue address size).drop 8) = size := by
  constructor
  · exact decodeFixed_encodeFixed (by simpa using haddress) _
  · have hlen : (encodeFixed64 address).length = 8 := length_encodeFixed 8 address
    rw [storedValue, List.drop_append_of_le_length hlen.ge, List.drop_of_length_le hlen.le,
      List.nil_append]
    have := decodeFixed_encodeFixed (n := 4) (by simpa using hsize) []
    rwa [List.append_nil] at this

theorem PointsTo.resolve_eq {v : VLog} {stored val : Option Bytes} (h : PointsTo v stored val) :
    v.resolve stored = some val := by
  cases stored with
  | none =>
    cases val with
    | none => rfl
    | some val => exact h.elim
  | some stored =>
    cases val with
    | none => exact h.elim
    | some val =>
      obtain ⟨address, rfl, haddress, hval, hholds⟩ := h
      obtain ⟨h64, h32⟩ := decode_storedValue haddress hval
      simp only [VLog.resolve, VLog.readValue, length_storedValue, lt_irrefl, if_false, h64, h32,
        hholds.readRecord_eq hval, map_some]

/-- The invariant: the database is faithful, and it stores addresses of the values of the map. -/
structure Resolves (o : DBOptions Bytes Bytes) (s : SeparatedDB) (m : Bytes → Option Bytes) :
    Prop where
  faithful : Faithful o s.db
  automatic : Automatic s.db
  sized : s.vlog.Sized
  stored : ∃ stored, Denotes s.db stored ∧ ∀ key, PointsTo s.vlog (stored key) (m key)

namespace Resolves

variable {o : DBOptions Bytes Bytes} {s s' : SeparatedDB} {m : Bytes → Option Bytes}

/-- **`Get` resolves addresses.** -/
theorem get_eq (h : Resolves o s m) (key : Bytes) : s.get key = some (m key) := by
  obtain ⟨stored, hd, hpoints⟩ := h.stored
  rw [SeparatedDB.get, hd.get_eq h.faithful.consistent.arranged h.faithful.shallow]
  exact (hpoints key).resolve_eq

theorem put (h : Resolves o s m) {key val : Bytes} (hok : PutsAlone s (.put key val))
    (hs : s.put key val = some s') : Resolves o s' ((BatchOp.put key val).apply m) := by
  obtain ⟨hval, haddress, hlimit⟩ := hok
  rw [SeparatedDB.put] at hs
  obtain ⟨db, hdb, rfl⟩ := map_eq_some_iff.1 hs
  obtain ⟨stored, hd, hpoints⟩ := h.stored
  obtain ⟨hf, hd'⟩ := h.faithful.step hd
    (a := .write [.put key (storedValue (s.vlog.addRecord key val).1 val.length)])
    ⟨trivial, hlimit⟩ hdb
  have hholds := VLog.holds_addRecord h.sized key val
  refine ⟨hf, h.automatic.write hdb, hholds.sized, _, hd', fun key' => ?_⟩
  rw [DBAction.ops, List.foldl_cons, List.foldl_nil]
  by_cases hkey : key' = key
  · rw [hkey, BatchOp.apply_put, BatchOp.apply_put]
    exact ⟨_, rfl, haddress, hval, hholds⟩
  · rw [BatchOp.apply_of_ne _ _ hkey, BatchOp.apply_of_ne _ _ hkey]
    exact (hpoints key').step (.addRecord key val)

theorem foldl_delete {v : VLog} {updates : List (BatchOp Bytes Bytes)}
    (hall : updates.all BatchOp.isDelete = true) {stored m : Bytes → Option Bytes}
    (h : ∀ key, PointsTo v (stored key) (m key)) (key : Bytes) :
    PointsTo v (updates.foldl BatchOp.apply stored key) (updates.foldl BatchOp.apply m key) := by
  induction updates generalizing stored m with
  | nil => exact h key
  | cons op updates ih =>
    rw [List.all_cons, Bool.and_eq_true] at hall
    cases op with
    | put key val => exact absurd hall.1 Bool.false_ne_true
    | delete k =>
      refine ih hall.2 fun key' => ?_
      by_cases hkey : key' = k
      · rw [hkey, BatchOp.apply_delete, BatchOp.apply_delete]
        trivial
      · rw [BatchOp.apply_of_ne _ _ hkey, BatchOp.apply_of_ne _ _ hkey]
        exact h key'

theorem write (h : Resolves o s m) {updates : List (BatchOp Bytes Bytes)}
    (hok : PutsAlone s (.write updates)) (hs : s.write updates = some s') :
    Resolves o s' (updates.foldl BatchOp.apply m) := by
  obtain ⟨hall, hlimit⟩ := hok
  rw [SeparatedDB.write] at hs
  obtain ⟨db, hdb, rfl⟩ := map_eq_some_iff.1 hs
  obtain ⟨stored, hd, hpoints⟩ := h.stored
  obtain ⟨hf, hd'⟩ := h.faithful.step hd (a := .write updates) ⟨trivial, hlimit⟩ hdb
  exact ⟨hf, h.automatic.write hdb, h.sized, _, hd', foldl_delete hall hpoints⟩

/-- **One step.** -/
theorem step (h : Resolves o s m) {a : SeparatedAction} (hok : PutsAlone s a)
    (hs : separatedStep o s a = some s') : Resolves o s' (a.ops.foldl BatchOp.apply m) := by
  cases a with
  | put key val => exact h.put hok hs
  | delete key => exact h.write ⟨rfl, hok⟩ hs
  | write updates => exact h.write hok hs
  | background work =>
    simp only [separatedStep] at hs
    obtain ⟨db, hdb, rfl⟩ := map_eq_some_iff.1 hs
    obtain ⟨stored, hd, hpoints⟩ := h.stored
    obtain ⟨hf, hd'⟩ := h.faithful.step hd (h.automatic.noSnapshot work) hdb
    have hauto : (work.action s.db).isManual = false := by cases work <;> rfl
    refine ⟨hf, h.automatic.step h.faithful.consistent hauto hdb, h.sized, stored, ?_, hpoints⟩
    cases work <;> exact hd'

theorem init (o : DBOptions Bytes Bytes) (file : Bytes) :
    Resolves o ⟨DBState.init, VLog.new file⟩ fun _ => none :=
  ⟨Faithful.init o, fun st hst => (by cases hst), VLog.sized_new file, _, denotes_init,
    fun _ => trivial⟩

theorem run (h : Resolves o s m) {as : List SeparatedAction}
    (hok : Steps.Meets (separatedStep o) PutsAlone s as)
    (hrun : Steps.run (separatedStep o) s as = some s') :
    Resolves o s' ((as.flatMap SeparatedAction.ops).foldl BatchOp.apply m) := by
  induction as generalizing s m with
  | nil =>
    obtain rfl := some.inj hrun
    exact h
  | cons a as ih =>
    obtain ⟨ha, hrest⟩ := hok
    rw [Steps.run] at hrun
    obtain ⟨s₁, hs₁, hrun⟩ := bind_eq_some_iff.1 hrun
    rw [List.flatMap_cons, List.foldl_append]
    exact ih (h.step ha hs₁) (hrest s₁ hs₁) hrun

end Resolves

/-- **Values that are written by `Put` are read back**, whatever the background thread does. -/
theorem get_of_separatedRun (o : DBOptions Bytes Bytes) (file : Bytes) (as : List SeparatedAction)
    (s : SeparatedDB)
    (hok : Steps.Meets (separatedStep o) PutsAlone ⟨DBState.init, VLog.new file⟩ as)
    (hrun : Steps.run (separatedStep o) ⟨DBState.init, VLog.new file⟩ as = some s) (key : Bytes) :
    s.get key = some ((as.flatMap SeparatedAction.ops).foldl BatchOp.apply (fun _ => none) key) :=
  ((Resolves.init o file).run hok hrun).get_eq key

namespace SeparationExample

/-- `Put` of `a` and `b`, a flush, a `Put` of `a` and a batch that deletes `b`. -/
def actions : List SeparatedAction :=
  [.put [97] [1], .put [98] [2, 2], .background .switchMemTable, .background .compactMemTable,
    .put [97] [3], .write [.delete [98]]]

/-- Twelve bytes in a batch. -/
def batch : List (BatchOp Bytes Bytes) := [.put [107] (List.replicate 12 0)]

end SeparationExample

open SeparationExample in
theorem get_of_separatedRun_flushed :
    ∃ s, Steps.run (separatedStep smallTables) ⟨DBState.init, VLog.new []⟩ actions = some s ∧
      s.get [97] = some ((actions.flatMap SeparatedAction.ops).foldl BatchOp.apply
        (fun _ => none) [97]) := by
  have h : (Steps.run (separatedStep smallTables) ⟨DBState.init, VLog.new []⟩ actions).isSome =
      true := by
    decide +kernel
  obtain ⟨s, hs⟩ := isSome_iff_exists.1 h
  exact ⟨s, hs, get_of_separatedRun smallTables [] actions s (by decide +kernel) hs [97]⟩

open SeparationExample in
/-- **A value in a batch is taken for an address**: `Get` returns an empty value. -/
theorem get_of_written_batch :
    ∃ s, separatedStep smallTables ⟨DBState.init, VLog.new []⟩ (.write batch) = some s ∧
      s.get [107] = some (some []) ∧
      s.get [107] ≠ some (batch.foldl BatchOp.apply (fun _ => none) [107]) := by
  have h : (separatedStep smallTables ⟨DBState.init, VLog.new []⟩ (.write batch)).map
      (fun s => s.get [107]) = some (some (some [])) := by decide +kernel
  obtain ⟨s, hs, hget⟩ := map_eq_some_iff.1 h
  refine ⟨s, hs, hget, ?_⟩
  rw [hget, batch, List.foldl_cons, List.foldl_nil, BatchOp.apply_put]
  decide

end Bourbon
