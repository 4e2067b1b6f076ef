import Mathlib.Logic.Function.Basic
import Bourbon.Lib.Steps
import Bourbon.Db.WriteBatch

/-!
# The queue of writers

`DBImpl::Write` with `BuildBatchGroup` and `MakeRoomForWrite`, and `TEST_CompactMemTable`, for any
number of threads.  A caller waits in `writers_` until it is at the front or another caller has done
its work.  The caller at the front makes room in the memtable, joins the batches behind it to its
own, and logs and applies them while the mutex is released.

* `QueueState`, `queueStep` : one step is what a thread does between two points where the mutex is
  free, or one of the three things that a writer does while it is free;
* `QueueState.buildBatchGroup` : the temporary batch is used from the second batch on;
* `QueueState.completed`, `applied`, `added`, `dropped` : the history, which no step reads.

Calls are numbered in the order in which they are pushed on the queue.  What the environment decides
is part of an action: the memory that memtables take, and the outcome of file operations.
-/

namespace Bourbon

/-! ### Batches of callers -/

/-- A batch whose records can be read. -/
structure ReadableBatch extends WriteBatch where
  readable : toWriteBatch.iterate.1 = .ok

namespace ReadableBatch

/-- The operations of a batch. -/
def ops (b : ReadableBatch) : List (BatchOp Bytes Bytes) := b.iterate.2

theorem iterate_eq (b : ReadableBatch) : b.iterate = (.ok, b.ops) := Prod.ext b.readable rfl

/-- A batch without operations. -/
def new : ReadableBatch := ⟨.new, rfl⟩

/-- `Put` with lengths and a count that fit their types. -/
def put (b : ReadableBatch) (key value : Bytes) (hkey : key.length < 2 ^ 32)
    (hvalue : value.length < 2 ^ 32) (hcount : b.ops.length + 1 < 2 ^ 31) : ReadableBatch :=
  ⟨b.toWriteBatch.put key value,
    congrArg Prod.fst (WriteBatch.iterate_put b.iterate_eq hkey hvalue hcount)⟩

/-- `SetSequence` keeps the records. -/
def setSequence (b : ReadableBatch) (seq : ℕ) : ReadableBatch :=
  ⟨b.toWriteBatch.setSequence seq, by rw [WriteBatch.iterate_setSequence]; exact b.readable⟩

theorem ops_setSequence (b : ReadableBatch) (seq : ℕ) : (b.setSequence seq).ops = b.ops :=
  congrArg Prod.snd (b.toWriteBatch.iterate_setSequence seq)

end ReadableBatch

/-! ### State -/

/-- A group that is being written. -/
structure Group where
  /-- `updates` is the batch of the first writer, and not `tmp_batch_`. -/
  own : Bool
  last_writer : ℕ
  last_sequence : ℕ
  deriving DecidableEq

/-- What a writer does next while the mutex is released. -/
inductive Stage where
  | addRecord
  | sync
  | insertInto
  /-- Take the mutex again, with the status of the group. -/
  | lock (status : Status)
  deriving DecidableEq

/-- Where a call is. -/
inductive Place where
  /-- In the loop at the head of `Write`. -/
  | queued
  /-- In `MakeRoomForWrite`, with its local variables. -/
  | makingRoom (allow_delay force : Bool)
  | writing (stage : Stage) (group : Group)
  /-- In the loop of `TEST_CompactMemTable`. -/
  | flushing
  | returned (status : Status)
  deriving DecidableEq

/-- A call of `Write`, or of `TEST_CompactMemTable`, which has no batch, with its `Writer`. -/
structure Call where
  batch : Option ReadableBatch
  sync : Bool
  done : Bool
  status : Status
  place : Place

/-- A group that has been completed, with what `MakeRoomForWrite` returned for it. -/
structure Completed where
  leader : ℕ
  members : List ℕ
  room : Status
  status : Status

/-- The database and the calls of `Write`. -/
structure QueueState where
  db : DBState Bytes Bytes
  bg_error : Status
  /-- The records of the current log file. -/
  log : List Bytes
  tmp_batch : WriteBatch
  writers : List ℕ
  /-- The number of calls so far. -/
  pushed : ℕ
  call : ℕ → Call
  completed : List Completed
  /-- The calls whose batches have been inserted, with the entries of each. -/
  applied : List (ℕ × List (Entry Bytes Bytes))
  /-- What has been added to memtables. -/
  added : List (Entry Bytes Bytes)
  /-- What compactions have not kept. -/
  dropped : List (Entry Bytes Bytes)

/-- `MOD`, and the sizes that are configured. -/
structure QueueOptions where
  mod : ℕ
  write_buffer_size : ℕ
  db : DBOptions Bytes Bytes

/-- What `MakeRoomForWrite` finds out: the memory of the memtable, that of a new one, and the
outcome of `NewWritableFile`. -/
structure RoomInput where
  usage : ℕ
  new_usage : ℕ
  new_file : Status

/-- Number of level-0 files from which on writes are slowed down. -/
def kL0SlowdownWritesTrigger : ℕ := 8

/-- Number of level-0 files from which on writes are stopped. -/
def kL0StopWritesTrigger : ℕ := 12

namespace QueueState

/-- A call goes to another place. -/
def setPlace (s : QueueState) (i : ℕ) (place : Place) : QueueState :=
  { s with call := Function.update s.call i { s.call i with place := place } }

/-- The operations of a call. -/
def ops (s : QueueState) (i : ℕ) : List (BatchOp Bytes Bytes) :=
  ((s.call i).batch.map ReadableBatch.ops).getD []

/-! ### Room in the memtable -/

/-- What a round of `MakeRoomForWrite` does. -/
inductive RoomRound where
  | leave (status : Status)
  /-- Sleep or wait. -/
  | release (allow_delay : Bool)
  | switch

/-- One round of the loop of `MakeRoomForWrite`. -/
def roomRound (o : QueueOptions) (s : QueueState) (usage : ℕ) (allow_delay force : Bool) :
    RoomRound :=
  if s.bg_error ≠ .ok then .leave s.bg_error
  else if allow_delay = true ∧ kL0SlowdownWritesTrigger ≤ (s.db.current 0).length then
    .release false
  else if force = false ∧ usage ≤ o.write_buffer_size then .leave .ok
  else if s.db.imm.isSome then .release allow_delay
  else if kL0StopWritesTrigger ≤ (s.db.current 0).length then .release allow_delay
  else .switch

/-- `MakeRoomForWrite` up to its end or to a point where it releases the mutex: the status, if it
has come to its end.  After a switch there is an immutable memtable, so that there is no second
one. -/
def makeRoomForWrite (o : QueueOptions) (s : QueueState) (i : ℕ) (room : RoomInput)
    (allow_delay force : Bool) : Option (QueueState × Option Status) :=
  match s.roomRound o room.usage allow_delay force with
  | .leave status => some (s, some status)
  | .release allow_delay => some (s.setPlace i (.makingRoom allow_delay force), none)
  | .switch =>
    if room.new_file ≠ .ok then some (s, some room.new_file)
    else
      match s.db.switchMemTable with
      | none => none
      | some db =>
        let switched : QueueState :=
          { s.setPlace i (.makingRoom allow_delay false) with db := db, log := [] }
        match switched.roomRound o room.new_usage allow_delay false with
        | .leave status => some (switched, some status)
        | .release allow_delay => some (switched.setPlace i (.makingRoom allow_delay false), none)
        | .switch => none

/-! ### Groups -/

/-- The loop of `BuildBatchGroup` over the writers behind the first: the temporary batch, if it is
the result, and the last writer. -/
def buildLoop (call : ℕ → Call) (tmp_batch : WriteBatch) (first : WriteBatch) (first_sync : Bool)
    (max_size : ℕ) : List ℕ → ℕ → Option WriteBatch → ℕ → Option (Option WriteBatch × ℕ)
  | [], _, result, last_writer => some (result, last_writer)
  | w :: rest, size, result, last_writer =>
    if (call w).sync = true ∧ first_sync = false then some (result, last_writer)
    else
      match (call w).batch with
      | none => buildLoop call tmp_batch first first_sync max_size rest size result w
      | some b =>
        if max_size < size + b.byteSize then some (result, last_writer)
        else
          match result with
          | some r => buildLoop call tmp_batch first first_sync max_size rest (size + b.byteSize)
              (some (r.append b.toWriteBatch)) w
          | none =>
            if tmp_batch.count ≠ 0 then none
            else buildLoop call tmp_batch first first_sync max_size rest (size + b.byteSize)
              (some ((tmp_batch.append first).append b.toWriteBatch)) w

/-- The limit for a group whose first batch has this size. -/
def maxGroupSize (size : ℕ) : ℕ := if size ≤ 128 * 2 ^ 10 then size + 128 * 2 ^ 10 else 2 ^ 20

/-- `BuildBatchGroup`.  The queue is not empty, and the first writer has a batch. -/
def buildBatchGroup (s : QueueState) : Option (Option WriteBatch × ℕ) :=
  match s.writers with
  | [] => none
  | first :: rest =>
    match (s.call first).batch with
    | none => none
    | some b => buildLoop s.call s.tmp_batch b.toWriteBatch (s.call first).sync
        (maxGroupSize b.byteSize) rest b.byteSize none first

/-- `updates`. -/
def updates (s : QueueState) (i : ℕ) (group : Group) : Option WriteBatch :=
  if group.own then (s.call i).batch.map ReadableBatch.toWriteBatch else some s.tmp_batch

/-- The sequence number behind the operations of a batch, as a `uint64_t`. -/
def sequenceAfter (last_sequence : ℕ) (b : WriteBatch) : ℕ :=
  ((last_sequence + b.count) % 2 ^ 64).toNat

/-- Build a group, number it, and release the mutex.  Sequence numbers have 56 bits. -/
def startGroup (o : QueueOptions) (s : QueueState) (i : ℕ) : Option QueueState :=
  let stage := if o.mod < 7 then Stage.addRecord else Stage.insertInto
  match s.buildBatchGroup with
  | none => none
  | some (none, last_writer) =>
    match (s.call i).batch with
    | none => none
    | some b =>
      let b := b.setSequence (s.db.last_sequence + 1)
      let last_sequence := sequenceAfter s.db.last_sequence b.toWriteBatch
      if s.db.last_sequence + b.count ≤ kMaxSequenceNumber then
        some { s with call := Function.update s.call i { s.call i with
          batch := some b, place := .writing stage ⟨true, last_writer, last_sequence⟩ } }
      else none
  | some (some b, last_writer) =>
    let b := b.setSequence (s.db.last_sequence + 1)
    let last_sequence := sequenceAfter s.db.last_sequence b
    if s.db.last_sequence + b.count ≤ kMaxSequenceNumber then
      some { s.setPlace i (.writing stage ⟨false, last_writer, last_sequence⟩) with tmp_batch := b }
    else none

/-- The writers up to a given one. -/
def upTo (last_writer : ℕ) (writers : List ℕ) : List ℕ :=
  writers.takeWhile (· ≠ last_writer) ++ [last_writer]

/-! ### The end of `Write` -/

/-- The loop that takes writers off the queue; `front` of an empty queue is undefined. -/
def popLoop (i last_writer : ℕ) (status : Status) :
    List ℕ → (ℕ → Call) → Option (List ℕ × List ℕ × (ℕ → Call))
  | [], _ => none
  | ready :: writers, call =>
    let call := if ready ≠ i then
      Function.update call ready { call ready with status := status, done := true } else call
    if ready = last_writer then some ([ready], writers, call)
    else (popLoop i last_writer status writers call).map fun r => (ready :: r.1, r.2)

/-- `Write` returns; `TEST_CompactMemTable` goes on if there was no error. -/
def leaveWrite (s : QueueState) (i : ℕ) (status : Status) : QueueState :=
  s.setPlace i (if (s.call i).batch.isNone ∧ status = .ok then .flushing else .returned status)

/-- The end of `Write`, from the loop on. -/
def complete (s : QueueState) (i last_writer : ℕ) (room status : Status) : Option QueueState :=
  match popLoop i last_writer status s.writers s.call with
  | none => none
  | some (members, writers, call) =>
    let popped : QueueState := { s with
      writers := writers
      call := call
      completed := s.completed ++ [⟨i, members, room, status⟩] }
    some (popped.leaveWrite i status)

/-- `Write` from a round of `MakeRoomForWrite` on, up to the next point where the mutex is free. -/
def runWrite (o : QueueOptions) (s : QueueState) (i : ℕ) (room : RoomInput)
    (allow_delay force : Bool) : Option QueueState :=
  match s.makeRoomForWrite o i room allow_delay force with
  | none => none
  | some (s, none) => some s
  | some (s, some status) =>
    if status = .ok ∧ (s.call i).batch.isSome then s.startGroup o i
    else s.complete i i status status

/-- The loop at the head of `Write`: wait, return, or go on. -/
def awake (o : QueueOptions) (s : QueueState) (i : ℕ) (room : RoomInput) : Option QueueState :=
  if (s.call i).done then some (s.leaveWrite i (s.call i).status)
  else if s.writers.head? = some i then
    let force := (s.call i).batch.isNone
    (s.setPlace i (.makingRoom (!force) force)).runWrite o i room (!force) force
  else some s

/-- A new writer at the end of the queue. -/
def pushCall (s : QueueState) (batch : Option ReadableBatch) (sync : Bool) : QueueState :=
  { s with
    writers := s.writers ++ [s.pushed]
    pushed := s.pushed + 1
    call := Function.update s.call s.pushed ⟨batch, sync, false, .ok, .queued⟩ }

/-- The start of `Write`. -/
def push (o : QueueOptions) (s : QueueState) (batch : Option ReadableBatch) (sync : Bool)
    (room : RoomInput) : Option QueueState :=
  (s.pushCall batch sync).awake o s.pushed room

/-- The members of a group that have batches, with their entries. -/
def parts (s : QueueState) : ℕ → List ℕ → List (ℕ × List (Entry Bytes Bytes))
  | _, [] => []
  | sequence, i :: members =>
    if (s.call i).batch.isSome then
      (i, batchEntries sequence (s.ops i)) :: s.parts (sequence + (s.ops i).length) members
    else s.parts sequence members

/-- The queue up to the last writer of a group. -/
def members (s : QueueState) (group : Group) : List ℕ := upTo group.last_writer s.writers

/-- `InsertInto`. -/
def insertInto (s : QueueState) (i : ℕ) (group : Group) : Option QueueState :=
  match s.updates i group with
  | none => none
  | some b =>
    let inserted : QueueState := { s with
      db := { s.db with mem := b.insertInto.2.foldl memTableAdd s.db.mem }
      added := s.added ++ b.insertInto.2
      applied := s.applied ++ s.parts b.sequence (s.members group) }
    some (inserted.setPlace i (.writing (.lock b.insertInto.1) group))

/-- Behind `mutex_.Lock()`. -/
def finishGroup (s : QueueState) (i : ℕ) (group : Group) (status : Status) : Option QueueState :=
  if s.db.last_sequence ≤ group.last_sequence then
    let numbered : QueueState := { s with
      tmp_batch := if group.own then s.tmp_batch else s.tmp_batch.clear
      db := { s.db with last_sequence := group.last_sequence } }
    numbered.complete i group.last_writer .ok status
  else none

/-- `RecordBackgroundError`. -/
def recordBackgroundError (s : QueueState) (status : Status) : QueueState :=
  if s.bg_error = .ok then { s with bg_error := status } else s

end QueueState

/-! ### Steps -/

/-- Steps of writers and of the background thread. -/
inductive QueueAction where
  | write (batch : ReadableBatch) (sync : Bool) (room : RoomInput)
  | compactMemTable (room : RoomInput)
  /-- A waiting writer gets the mutex. -/
  | awake (i : ℕ) (room : RoomInput)
  /-- A writer in `MakeRoomForWrite` gets the mutex. -/
  | resume (i : ℕ) (room : RoomInput)
  | addRecord (i : ℕ) (status : Status)
  | sync (i : ℕ) (status : Status)
  | insertInto (i : ℕ)
  | lock (i : ℕ)
  /-- A caller of `TEST_CompactMemTable` gets the mutex. -/
  | flushed (i : ℕ)
  | background (action : DBAction Bytes Bytes)
  | backgroundError (status : Status)

/-- What a step of a compaction does not keep. -/
def DBState.droppedBy {K V : Type*} [LinearOrder K] (s : DBState K V) :
    DBAction K V → List (Entry K V)
  | .compactEntry =>
    match s.compact with
    | none => []
    | some st =>
      match st.input with
      | [] => []
      | e :: _ => if (st.dropEntry e.1).2 then [e] else []
  | _ => []

/-- A step of the background thread. -/
def DBAction.isBackgroundWork {K V : Type*} : DBAction K V → Bool
  | .write _ => false
  | .switchMemTable => false
  | _ => true

/-- One step. -/
def queueStep (o : QueueOptions) (s : QueueState) : QueueAction → Option QueueState
  | .write batch sync room => s.push o (some batch) sync room
  | .compactMemTable room => s.push o none false room
  | .awake i room =>
    match (s.call i).place with
    | .queued => if i < s.pushed then s.awake o i room else none
    | _ => none
  | .resume i room =>
    match (s.call i).place with
    | .makingRoom allow_delay force => s.runWrite o i room allow_delay force
    | _ => none
  | .addRecord i status =>
    match (s.call i).place with
    | .writing .addRecord group =>
      match s.updates i group with
      | none => none
      | some b =>
        if status ≠ .ok then some (s.setPlace i (.writing (.lock status) group))
        else some { s.setPlace i (.writing (if (s.call i).sync then .sync else .insertInto) group)
          with log := s.log ++ [b.rep] }
    | _ => none
  | .sync i status =>
    match (s.call i).place with
    | .writing .sync group =>
      if status ≠ .ok then some (s.setPlace i (.writing (.lock status) group))
      else some (s.setPlace i (.writing .insertInto group))
    | _ => none
  | .insertInto i =>
    match (s.call i).place with
    | .writing .insertInto group => s.insertInto i group
    | _ => none
  | .lock i =>
    match (s.call i).place with
    | .writing (.lock status) group => s.finishGroup i group status
    | _ => none
  | .flushed i =>
    match (s.call i).place with
    | .flushing =>
      if s.db.imm.isSome ∧ s.bg_error = .ok then some s
      else some (s.setPlace i (.returned (if s.db.imm.isSome then s.bg_error else .ok)))
    | _ => none
  | .background action =>
    if action.isBackgroundWork then
      (dbStep o.db s.db action).map fun db =>
        { s with db := db, dropped := s.dropped ++ s.db.droppedBy action }
    else none
  | .backgroundError status => some (s.recordBackgroundError status)

/-- A database with an empty memtable before the first call. -/
def QueueState.init (db : DBState Bytes Bytes) : QueueState :=
  { db := db
    bg_error := .ok
    log := []
    tmp_batch := .new
    writers := []
    pushed := 0
    call := fun _ => ⟨none, false, false, .ok, .queued⟩
    completed := []
    applied := []
    added := []
    dropped := [] }

end Bourbon
