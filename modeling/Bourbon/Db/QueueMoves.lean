import Mathlib.Logic.Relation
import Bourbon.Db.WriteQueue

/-!
# What steps of the writer queue consist of

Between two points where the mutex is free a thread can do several things: join the queue, leave the
loop in which it waits, switch to a new memtable, and build a group.  `Move` has one constructor for
each of them, with what is known when it happens.  What every move preserves is preserved by every
step (`queueStep_moves`).
-/

namespace Bourbon

namespace QueueState

variable {o : QueueOptions} {fails pushes errors : Prop} {s s' : QueueState} {i : ℕ}

/-! ### What a step can do -/

/-- The moves that steps consist of.  Writing the log can fail if `fails` holds, there are new calls
if `pushes` holds, and there are errors of other kinds if `errors` holds. -/
inductive Move (o : QueueOptions) (fails pushes errors : Prop) : QueueState → QueueState → Prop
  | push (s : QueueState) (hpushes : pushes) (batch : Option ReadableBatch) (sync : Bool) :
      Move o fails pushes errors s (s.pushCall batch sync)
  /-- The writer at the front of the queue stops waiting. -/
  | enter {s : QueueState} {i : ℕ} (hfront : s.writers.head? = some i)
      (hplace : (s.call i).place = .queued) :
      Move o fails pushes errors s (s.setPlace i
        (.makingRoom (!(s.call i).batch.isNone) (s.call i).batch.isNone))
  | release {s : QueueState} {i : ℕ} {allow_delay force : Bool}
      (hplace : (s.call i).place = .makingRoom allow_delay force) (allow_delay' : Bool) :
      Move o fails pushes errors s (s.setPlace i (.makingRoom allow_delay' force))
  | switch {s : QueueState} {i : ℕ} {allow_delay force : Bool} {db : DBState Bytes Bytes}
      (hplace : (s.call i).place = .makingRoom allow_delay force)
      (hdb : s.db.switchMemTable = some db) :
      Move o fails pushes errors s
        { s.setPlace i (.makingRoom allow_delay false) with db := db, log := [] }
  /-- `MakeRoomForWrite` returns an error. -/
  | refuse {s s' : QueueState} {i : ℕ} {allow_delay force : Bool} {status : Status}
      (hplace : (s.call i).place = .makingRoom allow_delay force) (hstatus : status ≠ .ok)
      (hcause : status = s.bg_error ∨ errors)
      (hs : s.complete i i status status = some s') : Move o fails pushes errors s s'
  /-- There is room, and nothing to write. -/
  | forced {s s' : QueueState} {i : ℕ} {allow_delay : Bool}
      (hplace : (s.call i).place = .makingRoom allow_delay false) (herror : s.bg_error = .ok)
      (hbatch : (s.call i).batch = none)
      (hs : s.complete i i .ok .ok = some s') : Move o fails pushes errors s s'
  | start {s s' : QueueState} {i : ℕ} {allow_delay : Bool}
      (hplace : (s.call i).place = .makingRoom allow_delay false) (herror : s.bg_error = .ok)
      (hbatch : (s.call i).batch.isSome = true)
      (hs : s.startGroup o i = some s') : Move o fails pushes errors s s'
  | record {s : QueueState} {i : ℕ} {group : Group}
      (hplace : (s.call i).place = .writing .addRecord group) (stage : Stage)
      (hstage : stage = .sync ∨ stage = .insertInto) (record : Bytes) :
      Move o fails pushes errors s
        { s.setPlace i (.writing stage group) with log := s.log ++ [record] }
  | synced {s : QueueState} {i : ℕ} {group : Group}
      (hplace : (s.call i).place = .writing .sync group) :
      Move o fails pushes errors s (s.setPlace i (.writing .insertInto group))
  | fail {s : QueueState} {i : ℕ} {stage : Stage} {group : Group} (hfails : fails)
      (hplace : (s.call i).place = .writing stage group)
      (hstage : stage = .addRecord ∨ stage = .sync) {status : Status} (hstatus : status ≠ .ok) :
      Move o fails pushes errors s (s.setPlace i (.writing (.lock status) group))
  | insert {s s' : QueueState} {i : ℕ} {group : Group}
      (hplace : (s.call i).place = .writing .insertInto group)
      (hs : s.insertInto i group = some s') : Move o fails pushes errors s s'
  | finish {s s' : QueueState} {i : ℕ} {group : Group} {status : Status}
      (hplace : (s.call i).place = .writing (.lock status) group)
      (hs : s.finishGroup i group status = some s') : Move o fails pushes errors s s'
  /-- A writer whose batch another one has written. -/
  | leave {s : QueueState} {i : ℕ} (hplace : (s.call i).place = .queued)
      (hdone : (s.call i).done = true) :
      Move o fails pushes errors s (s.leaveWrite i (s.call i).status)
  | flushed {s : QueueState} {i : ℕ} (hplace : (s.call i).place = .flushing)
      (hwait : s.db.imm.isSome → s.bg_error ≠ .ok) :
      Move o fails pushes errors s
        (s.setPlace i (.returned (if s.db.imm.isSome then s.bg_error else .ok)))
  | background {s : QueueState} {action : DBAction Bytes Bytes} {db : DBState Bytes Bytes}
      (haction : action.isBackgroundWork = true) (hdb : dbStep o.db s.db action = some db) :
      Move o fails pushes errors s
        { s with db := db, dropped := s.dropped ++ s.db.droppedBy action }
  | error {s : QueueState} (herrors : errors) (herror : s.bg_error = .ok) (status : Status) :
      Move o fails pushes errors s { s with bg_error := status }

/-- Moves one after the other. -/
abbrev Moves (o : QueueOptions) (fails pushes errors : Prop) : QueueState → QueueState → Prop :=
  Relation.ReflTransGen (Move o fails pushes errors)

theorem call_setPlace (s : QueueState) (i j : ℕ) (place : Place) :
    (s.setPlace i place).call j =
      if j = i then { s.call j with place := place } else s.call j := by
  unfold setPlace
  dsimp only
  rw [Function.update_apply]
  split_ifs with h
  · rw [h]
  · rfl

theorem call_setPlace_of_ne (s : QueueState) {i j : ℕ} (h : j ≠ i) (place : Place) :
    (s.setPlace i place).call j = s.call j := by
  rw [call_setPlace, if_neg h]

theorem place_setPlace_self (s : QueueState) (i : ℕ) (place : Place) :
    ((s.setPlace i place).call i).place = place := by
  rw [call_setPlace, if_pos rfl]

theorem batch_setPlace (s : QueueState) (i j : ℕ) (place : Place) :
    ((s.setPlace i place).call j).batch = (s.call j).batch := by
  rw [call_setPlace]
  split_ifs <;> rfl

theorem sync_setPlace (s : QueueState) (i j : ℕ) (place : Place) :
    ((s.setPlace i place).call j).sync = (s.call j).sync := by
  rw [call_setPlace]
  split_ifs <;> rfl

theorem done_setPlace (s : QueueState) (i j : ℕ) (place : Place) :
    ((s.setPlace i place).call j).done = (s.call j).done := by
  rw [call_setPlace]
  split_ifs <;> rfl

variable {allow_delay force : Bool} {status : Status}

theorem roomRound_leave {usage : ℕ}
    (h : s.roomRound o usage allow_delay force = .leave status) :
    status ≠ .ok ∧ status = s.bg_error ∨ status = .ok ∧ force = false ∧ s.bg_error = .ok := by
  unfold roomRound at h
  split_ifs at h with herror _ hroom
  · cases h
    exact Or.inl ⟨herror, rfl⟩
  · cases h
    exact Or.inr ⟨rfl, hroom.1, not_not.1 herror⟩

theorem moves_of_leave
    (hplace : (s.call i).place = .makingRoom allow_delay force)
    (hstatus : status ≠ .ok ∧ (status = s.bg_error ∨ errors) ∨
      status = .ok ∧ force = false ∧ s.bg_error = .ok)
    (hs : (if status = .ok ∧ (s.call i).batch.isSome then s.startGroup o i
      else s.complete i i status status) = some s') : Move o fails pushes errors s s' := by
  rcases hstatus with ⟨hstatus, hcause⟩ | ⟨rfl, rfl, herror⟩
  · rw [if_neg fun h => hstatus h.1] at hs
    exact .refuse hplace hstatus hcause hs
  · by_cases hbatch : (s.call i).batch.isSome = true
    · rw [if_pos ⟨rfl, hbatch⟩] at hs
      exact .start hplace herror hbatch hs
    · rw [if_neg fun h => hbatch h.2] at hs
      exact .forced hplace herror (Option.not_isSome_iff_eq_none.1 hbatch) hs

variable {room : RoomInput}

theorem runWrite_moves
    (herrors : room.new_file ≠ .ok → errors)
    (hplace : (s.call i).place = .makingRoom allow_delay force)
    (hs : s.runWrite o i room allow_delay force = some s') : Moves o fails pushes errors s s' := by
  unfold runWrite makeRoomForWrite at hs
  cases hround : s.roomRound o room.usage allow_delay force with
  | leave status =>
    simp only [hround] at hs
    exact .single (moves_of_leave hplace
      ((roomRound_leave hround).imp_left (And.imp_right Or.inl)) hs)
  | release allow_delay' =>
    simp only [hround, Option.some.injEq] at hs
    rw [← hs]
    exact .single (.release hplace allow_delay')
  | switch =>
    simp only [hround] at hs
    by_cases hfile : room.new_file = .ok
    · rw [if_neg (not_not.2 hfile)] at hs
      cases hdb : s.db.switchMemTable with
      | none =>
        simp only [hdb] at hs
        cases hs
      | some db =>
        simp only [hdb] at hs
        have hswitch : Move o fails pushes errors s
            { s.setPlace i (.makingRoom allow_delay false) with db := db, log := [] } :=
          .switch hplace hdb
        generalize hs₁ : ({ s.setPlace i (.makingRoom allow_delay false) with
          db := db, log := [] } : QueueState) = s₁ at hs hswitch
        have hplace₁ : (s₁.call i).place = .makingRoom allow_delay false := by
          rw [← hs₁]
          exact place_setPlace_self _ _ _
        refine Relation.ReflTransGen.head hswitch ?_
        cases hround₁ : s₁.roomRound o room.new_usage allow_delay false with
        | leave status =>
          simp only [hround₁] at hs
          exact .single (moves_of_leave hplace₁
            ((roomRound_leave hround₁).imp_left (And.imp_right Or.inl)) hs)
        | release allow_delay' =>
          simp only [hround₁, Option.some.injEq] at hs
          rw [← hs]
          exact .single (.release hplace₁ allow_delay')
        | switch =>
          simp only [hround₁] at hs
          cases hs
    · rw [if_pos hfile] at hs
      exact .single (moves_of_leave hplace (Or.inl ⟨hfile, Or.inr (herrors hfile)⟩) hs)

theorem awake_moves (herrors : room.new_file ≠ .ok → errors)
    (hplace : (s.call i).place = .queued)
    (hs : s.awake o i room = some s') : Moves o fails pushes errors s s' := by
  unfold awake at hs
  split_ifs at hs with hdone hfront
  · rw [Option.some.injEq] at hs
    rw [← hs]
    exact .single (.leave hplace hdone)
  · exact .head (.enter hfront hplace) (runWrite_moves herrors (place_setPlace_self _ _ _) hs)
  · rw [Option.some.injEq] at hs
    rw [hs]

theorem place_pushCall (s : QueueState) (batch : Option ReadableBatch) (sync : Bool) :
    ((s.pushCall batch sync).call s.pushed).place = .queued := by
  unfold pushCall
  dsimp only
  rw [Function.update_self]

theorem push_moves {batch : Option ReadableBatch} {sync : Bool}
    (herrors : room.new_file ≠ .ok → errors) (hs : s.push o batch sync room = some s') :
    Moves o fails pushes errors (s.pushCall batch sync) s' :=
  awake_moves herrors (s.place_pushCall batch sync) hs

end QueueState

/-- Writing the log fails in this step. -/
def QueueAction.LogFails : QueueAction → Prop
  | .addRecord _ status => status ≠ .ok
  | .sync _ status => status ≠ .ok
  | _ => False

instance : (a : QueueAction) → Decidable a.LogFails
  | .addRecord _ status => inferInstanceAs (Decidable (status ≠ .ok))
  | .sync _ status => inferInstanceAs (Decidable (status ≠ .ok))
  | .write .. => isFalse id
  | .compactMemTable _ => isFalse id
  | .awake .. => isFalse id
  | .resume .. => isFalse id
  | .insertInto _ => isFalse id
  | .lock _ => isFalse id
  | .flushed _ => isFalse id
  | .background _ => isFalse id
  | .backgroundError _ => isFalse id

/-- A file for the log cannot be created in this step, or a background error is recorded. -/
def QueueAction.Errs : QueueAction → Prop
  | .write _ _ room => room.new_file ≠ .ok
  | .compactMemTable room => room.new_file ≠ .ok
  | .awake _ room => room.new_file ≠ .ok
  | .resume _ room => room.new_file ≠ .ok
  | .backgroundError _ => True
  | _ => False

/-- The operations of a new call, and whether it syncs. -/
def QueueAction.request : QueueAction → Option (List (BatchOp Bytes Bytes) × Bool)
  | .write batch syncs _ => some (batch.ops, syncs)
  | .compactMemTable _ => some ([], false)
  | _ => none

namespace QueueState

variable {o : QueueOptions} {fails pushes errors : Prop} {s s' : QueueState} {i : ℕ}

/-- **Steps consist of moves.** -/
theorem queueStep_moves {a : QueueAction} (hfails : a.LogFails → fails)
    (hpushes : a.request.isSome → pushes) (herrors : a.Errs → errors)
    (hs : queueStep o s a = some s') :
    Moves o fails pushes errors s s' := by
  cases a with
  | write batch sync room =>
    exact .head (.push s (hpushes rfl) (some batch) sync) (push_moves herrors hs)
  | compactMemTable room => exact .head (.push s (hpushes rfl) none false) (push_moves herrors hs)
  | awake i room =>
    simp only [queueStep] at hs
    cases hplace : (s.call i).place with
    | queued =>
      simp only [hplace] at hs
      split_ifs at hs
      exact awake_moves herrors hplace hs
    | _ =>
      simp only [hplace] at hs
      cases hs
  | resume i room =>
    simp only [queueStep] at hs
    cases hplace : (s.call i).place with
    | makingRoom allow_delay force =>
      simp only [hplace] at hs
      exact runWrite_moves herrors hplace hs
    | _ =>
      simp only [hplace] at hs
      cases hs
  | addRecord i status =>
    simp only [queueStep] at hs
    split at hs
    · rename_i group hplace
      cases hupdates : s.updates i group with
      | none =>
        simp only [hupdates] at hs
        cases hs
      | some b =>
        simp only [hupdates] at hs
        split_ifs at hs with hstatus hsync
        · rw [Option.some.injEq] at hs
          rw [← hs]
          exact .single (.fail (hfails hstatus) hplace (Or.inl rfl) hstatus)
        · rw [Option.some.injEq] at hs
          rw [← hs]
          exact .single (.record hplace _ (Or.inl rfl) b.rep)
        · rw [Option.some.injEq] at hs
          rw [← hs]
          exact .single (.record hplace _ (Or.inr rfl) b.rep)
    · cases hs
  | sync i status =>
    simp only [queueStep] at hs
    split at hs
    · rename_i group hplace
      split_ifs at hs with hstatus
      · rw [Option.some.injEq] at hs
        rw [← hs]
        exact .single (.fail (hfails hstatus) hplace (Or.inr rfl) hstatus)
      · rw [Option.some.injEq] at hs
        rw [← hs]
        exact .single (.synced hplace)
    · cases hs
  | insertInto i =>
    simp only [queueStep] at hs
    split at hs
    · rename_i group hplace
      exact .single (.insert hplace hs)
    · cases hs
  | lock i =>
    simp only [queueStep] at hs
    split at hs
    · rename_i status group hplace
      exact .single (.finish hplace hs)
    · cases hs
  | flushed i =>
    simp only [queueStep] at hs
    cases hplace : (s.call i).place with
    | flushing =>
      simp only [hplace] at hs
      by_cases hwait : s.db.imm.isSome ∧ s.bg_error = .ok
      · rw [if_pos hwait, Option.some.injEq] at hs
        rw [hs]
      · rw [if_neg hwait, Option.some.injEq] at hs
        rw [← hs]
        exact .single (.flushed hplace fun himm herror => hwait ⟨himm, herror⟩)
    | _ =>
      simp only [hplace] at hs
      cases hs
  | background action =>
    simp only [queueStep] at hs
    split_ifs at hs with haction
    obtain ⟨db, hdb, rfl⟩ := Option.map_eq_some_iff.1 hs
    exact .single (.background haction hdb)
  | backgroundError status =>
    simp only [queueStep, recordBackgroundError, Option.some.injEq] at hs
    split_ifs at hs with herror
    · rw [← hs]
      exact .single (.error (herrors trivial) herror status)
    · rw [hs]

end QueueState

/-! ### Background work -/

variable {K V : Type*}

theorem DBState.finishOutput_frame (o : DBOptions K V) (s : DBState K V)
    (st : CompactionState K V) : (s.finishOutput o st).1 =
      { s with tables := (s.finishOutput o st).1.tables } := by
  unfold DBState.finishOutput
  cases st.builder with
  | none => rfl
  | some p => rfl

theorem DBState.addToOutput_frame (o : DBOptions K V) (s : DBState K V)
    (st : CompactionState K V) (e : Entry K V) :
    (s.addToOutput o st e).1 =
        { s with
          tables := (s.addToOutput o st e).1.tables
          next_file_number := (s.addToOutput o st e).1.next_file_number } ∧
      s.next_file_number ≤ (s.addToOutput o st e).1.next_file_number := by
  unfold DBState.addToOutput
  cases st.builder with
  | none =>
    dsimp only
    split_ifs
    · rw [DBState.finishOutput_frame]
      exact ⟨rfl, Nat.le_succ _⟩
    · exact ⟨rfl, Nat.le_succ _⟩
  | some p =>
    dsimp only
    split_ifs
    · rw [DBState.finishOutput_frame]
      exact ⟨rfl, le_rfl⟩
    · exact ⟨rfl, le_rfl⟩

variable {o : DBOptions K V} {s s' : DBState K V}

theorem DBState.compactEntry_frame [LinearOrder K] (hs : s.compactEntry o = some s') :
    s' = { s with
        tables := s'.tables, next_file_number := s'.next_file_number, compact := s'.compact } ∧
      s.next_file_number ≤ s'.next_file_number := by
  obtain ⟨st, e, rest, hst, hinput⟩ := DBState.compactEntry_some hs
  unfold DBState.compactEntry at hs
  simp only [hst, hinput, Option.some.injEq] at hs
  generalize st.shouldStopBefore o.max_file_size e.1 = p at hs
  obtain ⟨st₁, stop⟩ := p
  dsimp only at hs
  have hclose : (if stop = true then s.finishOutput o st₁ else (s, st₁)).1 =
      { s with tables := (if stop = true then s.finishOutput o st₁ else (s, st₁)).1.tables } := by
    split_ifs
    · exact DBState.finishOutput_frame o s st₁
    · rfl
  generalize (if stop = true then s.finishOutput o st₁ else (s, st₁)) = p at hs hclose
  obtain ⟨s₂, st₂⟩ := p
  dsimp only at hs hclose
  generalize st₂.dropEntry e.1 = p at hs
  obtain ⟨st₃, drop⟩ := p
  dsimp only at hs
  have hadd : (if drop = true then (s₂, st₃) else s₂.addToOutput o st₃ e).1 =
      { s₂ with
        tables := (if drop = true then (s₂, st₃) else s₂.addToOutput o st₃ e).1.tables
        next_file_number :=
          (if drop = true then (s₂, st₃) else s₂.addToOutput o st₃ e).1.next_file_number } ∧
      s₂.next_file_number ≤
        (if drop = true then (s₂, st₃) else s₂.addToOutput o st₃ e).1.next_file_number := by
    split_ifs
    · exact ⟨rfl, le_rfl⟩
    · exact DBState.addToOutput_frame o s₂ st₃ e
  generalize (if drop = true then (s₂, st₃) else s₂.addToOutput o st₃ e) = p at hs hadd
  obtain ⟨s₄, st₄⟩ := p
  dsimp only at hs hadd
  rw [← hs, hadd.1, hclose]
  rw [hclose] at hadd
  exact ⟨rfl, hadd.2⟩

/-- **Background work leaves the memtable and the sequence number alone**, and the immutable
memtable up to a flush.  File numbers are given out in order. -/
theorem dbStep_background {o : DBOptions Bytes Bytes} {db db' : DBState Bytes Bytes}
    {action : DBAction Bytes Bytes} (haction : action.isBackgroundWork = true)
    (hdb : dbStep o db action = some db') : db'.mem = db.mem ∧
      db'.last_sequence = db.last_sequence ∧
      (db'.imm = db.imm ∨ action = .compactMemTable ∧ db'.imm = none) ∧
      db.next_file_number ≤ db'.next_file_number := by
  cases action with
  | write batch => cases haction
  | switchMemTable => cases haction
  | compactMemTable =>
    obtain ⟨entries, file, level, -, -, -, rfl⟩ := DBState.compactMemTable_some hdb
    exact ⟨rfl, rfl, Or.inr ⟨rfl, rfl⟩, Nat.le_succ _⟩
  | automaticCompaction file_to_compact smallest_snapshot =>
    obtain ⟨c, -, -, -, -, ⟨-, rfl⟩ | rfl⟩ := DBState.automaticCompaction_some hdb
    · exact ⟨rfl, rfl, Or.inl rfl, le_rfl⟩
    · exact ⟨rfl, rfl, Or.inl rfl, le_rfl⟩
  | manualCompaction level start limit smallest_snapshot =>
    obtain ⟨c, -, -, rfl⟩ := DBState.manualCompaction_some hdb
    exact ⟨rfl, rfl, Or.inl rfl, le_rfl⟩
  | compactEntry =>
    obtain ⟨hframe, hnext⟩ := DBState.compactEntry_frame hdb
    rw [hframe]
    exact ⟨rfl, rfl, Or.inl rfl, hnext⟩
  | installCompactionResults =>
    obtain ⟨st, -, -, rfl⟩ := DBState.installCompactionResults_some hdb
    rw [DBState.finishOutput_frame]
    exact ⟨rfl, rfl, Or.inl rfl, le_rfl⟩
  | abortCompaction =>
    simp only [dbStep, Option.some.injEq] at hdb
    rw [← hdb]
    exact ⟨rfl, rfl, Or.inl rfl, le_rfl⟩

end Bourbon
