import Bourbon.Db.ForcedFlush

/-!
# Errors of `Sync`

After a failed `Sync` nobody knows whether the record is in the log.  Later calls of `Write` must
therefore fail, and `MakeRoomForWrite` does refuse them if there is a background error; but a failed
`Sync` does not record one.

* `Refusing` : there is a background error, and the group that is being written has failed;
* `sync_error_refuses` : from then on all groups fail;
* `sync_error_forgotten` : without a background error the next call of `Write` succeeds.
-/

namespace Bourbon

namespace QueueState

variable {o : QueueOptions} {fails pushes errors : Prop} {s s' : QueueState} {i : ℕ}
  {base : List Completed}

/-- There is a background error, and all groups that are not in `base` fail. -/
structure Refusing (base : List Completed) (s : QueueState) : Prop where
  queue : Queue s
  bg_error : s.bg_error ≠ .ok
  writing : ∀ j stage group, (s.call j).place = .writing stage group →
    ∃ status, status ≠ .ok ∧ stage = .lock status
  completed : ∀ c ∈ s.completed, c.status = .ok → c ∈ base

namespace Refusing

theorem setPlace (h : Refusing base s) {place : Place}
    (hplace : ∀ stage group, place = .writing stage group →
      ∃ status, status ≠ .ok ∧ stage = .lock status)
    {db : DBState Bytes Bytes} {log : List Bytes}
    (hq : Queue { s.setPlace i place with db := db, log := log }) :
    Refusing base { s.setPlace i place with db := db, log := log } := by
  refine ⟨hq, h.bg_error, fun j stage group hj => ?_, h.completed⟩
  by_cases hji : j = i
  · subst hji
    exact hplace stage group ((place_setPlace_self s j place).symm.trans hj)
  · exact h.writing j stage group
      ((congrArg Call.place (call_setPlace_of_ne s hji place)).symm.trans hj)

theorem of_completion (h : Refusing base s) (hq : Queue s') (hfront : s.writers.head? = some i)
    {tmp_batch : WriteBatch} {db : DBState Bytes Bytes} {last : ℕ} {room status : Status}
    (hstatus : status ≠ .ok)
    (hs : Completion { s with tmp_batch := tmp_batch, db := db } i last room status s') :
    Refusing base s' := by
  refine ⟨hq, ?_, fun j stage group hj => ?_, fun c hc hok => ?_⟩
  · rw [hs.bg_error]
    exact h.bg_error
  · exact absurd hj (hs.not_writing (fun j _ _ hwriting => h.queue.eq_of_writing hfront hwriting)
      j stage group)
  · rw [hs.completed, List.mem_append, List.mem_singleton] at hc
    rcases hc with hc | rfl
    · exact h.completed c hc hok
    · exact absurd hok hstatus

theorem move (h : Refusing base s) (hs : Move o fails pushes errors s s') : Refusing base s' := by
  have hq := h.queue.move hs
  cases hs with
  | push hpushes batch sync =>
    refine ⟨hq, h.bg_error, fun j stage group hj => ?_, h.completed⟩
    by_cases hnew : j = s.pushed
    · rw [hnew, s.place_pushCall] at hj
      cases hj
    · exact h.writing j stage group
        ((congrArg Call.place (Function.update_of_ne hnew _ s.call)).symm.trans hj)
  | enter hfront hplace => exact h.setPlace (fun _ _ heq => Place.noConfusion heq) hq
  | release hplace allow_delay' => exact h.setPlace (fun _ _ heq => Place.noConfusion heq) hq
  | switch hplace hdb => exact h.setPlace (fun _ _ heq => Place.noConfusion heq) hq
  | refuse hplace hstatus hcause hs =>
    have hfront := h.queue.front_room hplace
    exact h.of_completion hq hfront hstatus (completion_of_complete (Queue.mem_of_front hfront) hs)
  | forced hplace herror hbatch hs => exact absurd herror h.bg_error
  | start hplace herror hbatch hs => exact absurd herror h.bg_error
  | record hplace stage hstage record =>
    obtain ⟨status, -, heq⟩ := h.writing _ _ _ hplace
    cases heq
  | synced hplace =>
    obtain ⟨status, -, heq⟩ := h.writing _ _ _ hplace
    cases heq
  | fail hfails hplace hstage hstatus =>
    obtain ⟨status, -, heq⟩ := h.writing _ _ _ hplace
    rcases hstage with rfl | rfl <;> cases heq
  | insert hplace hs =>
    obtain ⟨status, -, heq⟩ := h.writing _ _ _ hplace
    cases heq
  | finish hplace hs =>
    obtain ⟨status, hstatus, heq⟩ := h.writing _ _ _ hplace
    cases heq
    exact h.of_completion hq (h.queue.front_writing hplace) hstatus
      (completion_of_finishGroup (h.queue.group _ _ _ hplace).last hs).2
  | leave hplace hdone =>
    refine h.setPlace (fun _ _ heq => ?_) hq
    split_ifs at heq
  | flushed hplace hwait => exact h.setPlace (fun _ _ heq => Place.noConfusion heq) hq
  | background haction hdb => exact ⟨hq, h.bg_error, h.writing, h.completed⟩
  | error herrors herror status => exact absurd herror h.bg_error

theorem run {as : List QueueAction} (h : Refusing base s)
    (hrun : Steps.run (queueStep o) s as = some s') : Refusing base s' := by
  have hstep : ∀ s a s', Refusing base s → True → queueStep o s a = some s' →
      Refusing base s' := by
    intro s a s' h _ hs
    have hmoves := moves_of_step hs
    clear hs
    induction hmoves with
    | refl => exact h
    | tail _ hmove ih => exact ih.move hmove
  exact Steps.invariant hstep h (Steps.meets_true _ _) hrun

end Refusing

theorem refusing_of_sync {status : Status} (hq : Queue s) (herror : s.bg_error ≠ .ok)
    (hstatus : status ≠ .ok) (hs : queueStep o s (.sync i status) = some s') :
    Refusing s.completed s' := by
  have hq' := hq.moves (moves_of_step hs)
  simp only [queueStep] at hs
  split at hs
  · rename_i group hplace
    rw [if_pos hstatus, Option.some.injEq] at hs
    subst hs
    refine ⟨hq', herror, fun j stage group' hj => ?_, fun c hc _ => hc⟩
    by_cases hji : j = i
    · rw [hji, place_setPlace_self] at hj
      cases hj
      exact ⟨status, hstatus, rfl⟩
    · rw [call_setPlace_of_ne s hji] at hj
      exact absurd (hq.eq_of_writing (hq.front_writing hplace) hj) hji
  · cases hs

/-- **A failed `Sync` stops the database from acknowledging writes** if there is a background error
when it fails: whoever returns without an error was part of a group that had been completed. -/
theorem sync_error_refuses (o : QueueOptions) (db : DBState Bytes Bytes)
    (before after : List QueueAction) (i : ℕ) (status : Status) (s₁ s₂ : QueueState)
    (hbefore : Steps.run (queueStep o) (init db) before = some s₁) (herror : s₁.bg_error ≠ .ok)
    (hstatus : status ≠ .ok)
    (hafter : Steps.run (queueStep o) s₁ (.sync i status :: after) = some s₂) (j : ℕ)
    (hbatch : (s₂.call j).batch.isSome = true) (hok : (s₂.call j).place = .returned .ok) :
    ∃ c ∈ s₁.completed, j ∈ c.members := by
  have hq₁ : Queue s₁ :=
    Steps.invariant (fun s a s' hq (_ : True) hs => hq.moves (moves_of_step hs))
    (queue_init db) (Steps.meets_true _ _) hbefore
  rw [Steps.run] at hafter
  obtain ⟨s, hs, hafter⟩ := Option.bind_eq_some_iff.1 hafter
  have h := (refusing_of_sync hq₁ herror hstatus hs).run hafter
  obtain ⟨c, hc, hj⟩ := h.queue.completed_of_place hok id
  have hleft := h.queue.left c hc j hj
  rw [Call.Left, hok] at hleft
  exact ⟨c, h.completed c hc (hleft hbatch).symm, hj⟩

namespace SyncErrorRun

open GroupCommitRun

/-- One call, and a second one that syncs, up to its `Sync`. -/
def before : List QueueAction :=
  [.write (batch 97) false room, .addRecord 0 .ok, .insertInto 0, .lock 0,
    .write (batch 98) true room, .addRecord 1 .ok]

/-- The second call ends, and there is a third one. -/
def after : List QueueAction := [.lock 1, .write (batch 99) false room]

end SyncErrorRun

open GroupCommitRun SyncErrorRun in
theorem sync_error_refuses_third :
    ∃ s₁ s₂, Steps.run (queueStep options) (init DBState.init)
        (before ++ [.backgroundError (.ioError "compaction")]) = some s₁ ∧
      Steps.run (queueStep options) s₁ (.sync 1 (.ioError "sync") :: after) = some s₂ ∧
      (s₂.call 0).place = .returned .ok ∧ (∃ c ∈ s₁.completed, 0 ∈ c.members) ∧
      (s₂.call 1).place = .returned (.ioError "sync") ∧
      (s₂.call 2).place = .returned (.ioError "compaction") := by
  have hrun : (Steps.run (queueStep options) (init DBState.init)
      (before ++ [.backgroundError (.ioError "compaction")])).map QueueState.bg_error =
        some (.ioError "compaction") := by
    decide +kernel
  have hsync : ((Steps.run (queueStep options) (init DBState.init)
      (before ++ [.backgroundError (.ioError "compaction")])).bind fun s₁ =>
        Steps.run (queueStep options) s₁ (.sync 1 (.ioError "sync") :: after)).map (fun s =>
          ((s.call 0).batch.isSome, (s.call 0).place, (s.call 1).place, (s.call 2).place)) =
            some (true, .returned .ok, .returned (.ioError "sync"),
              .returned (.ioError "compaction")) := by
    decide +kernel
  obtain ⟨s₁, hs₁, herror⟩ := Option.map_eq_some_iff.1 hrun
  rw [hs₁] at hsync
  obtain ⟨s₂, hs₂, heq⟩ := Option.map_eq_some_iff.1 hsync
  obtain ⟨hbatch, heq⟩ := Prod.mk.inj heq
  obtain ⟨hok, heq⟩ := Prod.mk.inj heq
  obtain ⟨hsecond, hthird⟩ := Prod.mk.inj heq
  refine ⟨s₁, s₂, hs₁, hs₂, hok, ?_, hsecond, hthird⟩
  exact sync_error_refuses options DBState.init _ after 1 (.ioError "sync") s₁ s₂ hs₁
    (by rw [herror]; exact Status.noConfusion) Status.noConfusion hs₂ 0 hbatch hok

open GroupCommitRun SyncErrorRun in
/-- Without a background error the third call, which starts after the second one has failed, returns
without an error. -/
theorem sync_error_forgotten :
    ∃ s₁ s₂, Steps.run (queueStep options) (init DBState.init) before = some s₁ ∧
      Steps.run (queueStep options) s₁ (.sync 1 (.ioError "sync") ::
        (after ++ [.addRecord 2 .ok, .insertInto 2, .lock 2])) = some s₂ ∧
      s₁.pushed = 2 ∧ (s₂.call 1).place = .returned (.ioError "sync") ∧
      (s₂.call 2).batch.isSome = true ∧ (s₂.call 2).place = .returned .ok := by
  have hrun : ((Steps.run (queueStep options) (init DBState.init) before).bind fun s₁ =>
      (Steps.run (queueStep options) s₁ (.sync 1 (.ioError "sync") ::
        (after ++ [.addRecord 2 .ok, .insertInto 2, .lock 2]))).map fun s =>
          (s₁.pushed, (s.call 1).place, (s.call 2).batch.isSome, (s.call 2).place)) =
            some (2, .returned (.ioError "sync"), true, .returned .ok) := by
    decide +kernel
  obtain ⟨s₁, hs₁, hrun⟩ := Option.bind_eq_some_iff.1 hrun
  obtain ⟨s₂, hs₂, heq⟩ := Option.map_eq_some_iff.1 hrun
  obtain ⟨hpushed, heq⟩ := Prod.mk.inj heq
  obtain ⟨hsecond, heq⟩ := Prod.mk.inj heq
  obtain ⟨hbatch, hok⟩ := Prod.mk.inj heq
  exact ⟨s₁, s₂, hs₁, hs₂, hpushed, hsecond, hbatch, hok⟩

end QueueState

end Bourbon
