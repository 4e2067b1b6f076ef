import Bourbon.Db.GroupCommit

/-!
# Forcing the memtable to disk

`TEST_CompactMemTable` passes a null batch to `Write`.  At the front of the queue it forces a switch
to a new memtable; then the caller waits until there is no immutable memtable.

* `Forcing` : the progress of a null batch that no other writer can take into its group;
* `compactMemTable_empties` : such a call leaves none of the earlier operations in memory;
* `compactMemTable_absorbed` : a null batch behind a waiting writer is done with the group of that
  writer, and no memtable is switched.
-/

namespace Bourbon

open List Function Option

namespace QueueState

variable {o : QueueOptions} {fails pushes errors : Prop} {s s' : QueueState} {i : ℕ}

/-! ### What happens to memtables -/

/-- Moves leave the memtables alone, flush the immutable one, switch to a new one, or add entries
with new sequence numbers. -/
theorem Move.memtables (hq : Queue s) (hs : Move o fails pushes errors s s') :
    s.db.last_sequence ≤ s'.db.last_sequence ∧
      (s'.db.mem = s.db.mem ∧ (s'.db.imm = s.db.imm ∨ s'.db.imm = none) ∨
        s'.db.mem = [] ∧ s'.db.imm = some s.db.mem ∨
        s'.db.imm = s.db.imm ∧
          ∀ e ∈ s'.db.mem, e ∈ s.db.mem ∨ s.db.last_sequence < e.1.sequence) := by
  cases hs.kind hq with
  | quiet hquiet =>
    refine ⟨hquiet.last_sequence.ge, ?_⟩
    cases hquiet.db with
    | same hdb hdropped => exact Or.inl (by rw [hdb]; exact ⟨rfl, Or.inl rfl⟩)
    | switch hdb hdropped =>
      obtain ⟨-, hs'⟩ := DBState.switchMemTable_some hdb
      exact Or.inr (Or.inl (by rw [hs']; exact ⟨rfl, rfl⟩))
    | background haction hdb hdropped =>
      obtain ⟨hmem, -, himm, -⟩ := dbStep_background haction hdb
      exact Or.inl ⟨hmem, himm.imp_right And.right⟩
  | room hplace hc =>
    rw [hc.db]
    exact ⟨le_rfl, Or.inl ⟨rfl, Or.inl rfl⟩⟩
  | insert hplace hins =>
    rw [hins.db]
    refine ⟨le_rfl, Or.inr (Or.inr ⟨rfl, fun e he => ?_⟩)⟩
    rcases mem_foldl_memTableAdd.1 he with he | he
    · have := sequence_batchEntries he
      exact Or.inr (by omega)
    · exact Or.inl he
  | finish hplace hle hc =>
    rw [hc.db]
    exact ⟨hle, Or.inl ⟨rfl, Or.inl rfl⟩⟩

theorem Move.history (hq : Queue s) (hs : Move o fails pushes errors s s') :
    s.pushed ≤ s'.pushed ∧ (∀ e ∈ s.added, e ∈ s'.added) ∧
      ∀ n < s.pushed, (s'.call n).batch.isSome = (s.call n).batch.isSome := by
  cases hs.kind hq with
  | quiet hquiet =>
    exact ⟨hquiet.pushed, fun e he => hquiet.added.symm ▸ he, fun n hn => (hquiet.request n hn).1⟩
  | room hplace hc =>
    exact ⟨hc.pushed.ge, fun e he => hc.added.symm ▸ he, fun n _ => by rw [hc.batch]⟩
  | insert hplace hins =>
    refine ⟨hins.same.pushed.ge, fun e he => ?_, fun n _ => hins.same.isSome n⟩
    rw [hins.added]
    exact mem_append_left _ he
  | finish hplace hle hc =>
    exact ⟨hc.pushed.ge, fun e he => hc.added.symm ▸ he, fun n _ => by rw [hc.batch]⟩

/-- The memtable has none of the entries, and what is added from now on is newer. -/
structure Emptied (old : List (Entry Bytes Bytes)) (s : QueueState) : Prop where
  mem : ∀ e ∈ old, e ∉ s.db.mem
  last : ∀ e ∈ old, e.1.sequence ≤ s.db.last_sequence

variable {old : List (Entry Bytes Bytes)}

theorem Emptied.move (h : Emptied old s) (hq : Queue s) (hs : Move o fails pushes errors s s') :
    Emptied old s' := by
  obtain ⟨hle, hmem⟩ := hs.memtables hq
  refine ⟨fun e he hin => ?_, fun e he => (h.last e he).trans hle⟩
  rcases hmem with ⟨hmem, -⟩ | ⟨hmem, -⟩ | ⟨-, hmem⟩
  · exact h.mem e he (hmem ▸ hin)
  · rw [hmem] at hin
    cases hin
  · rcases hmem e hin with hin | hlt
    · exact h.mem e he hin
    · exact absurd (h.last e he) (not_le.2 hlt)

theorem Emptied.imm_move (h : Emptied old s) (himm : ∀ e ∈ old, e ∉ s.db.immEntries) (hq : Queue s)
    (hs : Move o fails pushes errors s s') : ∀ e ∈ old, e ∉ s'.db.immEntries := by
  rintro e he ⟨imm, heq, hin⟩
  obtain ⟨-, ⟨-, himm' | himm'⟩ | ⟨-, himm'⟩ | ⟨himm', -⟩⟩ := hs.memtables hq
  · exact himm e he ⟨imm, himm'.symm.trans heq, hin⟩
  · cases himm'.symm.trans heq
  · cases himm'.symm.trans heq
    exact h.mem e he hin
  · exact himm e he ⟨imm, himm'.symm.trans heq, hin⟩

/-! ### A null batch -/

/-- Every writer in the queue is part of the group that is being written. -/
def noneWaits (s : QueueState) : Bool :=
  match s.writers with
  | [] => true
  | i :: _ =>
    match (s.call i).place with
    | .writing _ group => s.writers.getLast? == some group.last_writer
    | _ => false

/-- The writers before `n` are the group that is being written. -/
def NextInLine (s : QueueState) (n : ℕ) : Prop :=
  ∃ before behind, s.writers = before ++ n :: behind ∧ (before = [] ∨
    ∃ i stage group, (s.call i).place = .writing stage group ∧ s.members group = before)

variable {n : ℕ}

theorem nextInLine_pushCall (hq : Queue s) (h : s.noneWaits = true) (batch : Option ReadableBatch)
    (sync : Bool) : NextInLine (s.pushCall batch sync) s.pushed := by
  refine ⟨s.writers, [], rfl, ?_⟩
  unfold noneWaits at h
  cases hw : s.writers with
  | nil => exact Or.inl rfl
  | cons i rest =>
    simp only [hw] at h
    cases hplace : (s.call i).place with
    | writing stage group =>
      simp only [hplace, beq_iff_eq] at h
      have hi : i ≠ s.pushed := Nat.ne_of_lt (hq.lt_pushed (by rw [hw]; exact mem_cons_self))
      refine Or.inr ⟨i, stage, group, ?_, ?_⟩
      · rw [← hplace]
        exact congrArg Call.place (update_of_ne hi _ _)
      · have hlast := (hq.group i stage group hplace).last
        rw [← hw] at h ⊢
        obtain ⟨init, hinit⟩ := List.getLast?_eq_some_iff.1 h
        have hnodup := (nodup_append.1 hq.nodup).2.1
        rw [hinit] at hnodup
        have hnot : group.last_writer ∉ init := fun hmem =>
          disjoint_of_nodup_append hnodup hmem (mem_singleton_self _)
        rw [members, show (s.pushCall batch sync).writers = s.writers ++ [s.pushed] from rfl,
          upTo_append hlast, hinit, upTo_eq hnot]
    | _ => simp only [hplace, reduceCtorEq] at h

namespace NextInLine

theorem mem (h : NextInLine s n) : n ∈ s.writers := by
  obtain ⟨before, behind, hwriters, -⟩ := h
  rw [hwriters]
  exact mem_append_right _ mem_cons_self

theorem front (h : NextInLine s n) (hq : Queue s) (hfront : s.writers.head? = some i) :
    i = n ∨ ∃ stage group, (s.call i).place = .writing stage group := by
  obtain ⟨before, behind, hwriters, rfl | ⟨j, stage, group, hplace, -⟩⟩ := h
  · rw [hwriters] at hfront
    exact Or.inl (some.inj hfront).symm
  · have := hq.front_writing hplace
    rw [hfront, Option.some.injEq] at this
    exact Or.inr ⟨stage, group, this ▸ hplace⟩

theorem congr (h : NextInLine s n) (hq : Queue s) (more : List ℕ)
    (hwriters : s'.writers = s.writers ++ more)
    (hplace : ∀ j stage group, (s.call j).place = .writing stage group →
      ∃ stage', (s'.call j).place = .writing stage' group) : NextInLine s' n := by
  obtain ⟨before, behind, hw, hbefore⟩ := h
  refine ⟨before, behind ++ more, ?_, hbefore.imp_right ?_⟩
  · rw [hwriters, hw, append_assoc, cons_append]
  · rintro ⟨j, stage, group, hj, hmembers⟩
    obtain ⟨stage', hj'⟩ := hplace j stage group hj
    refine ⟨j, stage', group, hj', ?_⟩
    rw [← hmembers, members, members, hwriters, upTo_append (hq.group j stage group hj).last]

theorem setPlace (h : NextInLine s n) (hq : Queue s) {place : Place}
    (hplace : ∀ stage group, (s.call i).place = .writing stage group →
      ∃ stage', place = .writing stage' group) {db : DBState Bytes Bytes} (log : List Bytes) :
    NextInLine { s.setPlace i place with db := db, log := log } n := by
  refine h.congr hq [] (append_nil _).symm fun j stage group hj => ?_
  by_cases hji : j = i
  · rw [hji] at hj ⊢
    obtain ⟨stage', rfl⟩ := hplace stage group hj
    exact ⟨stage', place_setPlace_self s i _⟩
  · exact ⟨stage, (congrArg Call.place (call_setPlace_of_ne s hji place)).trans hj⟩

theorem of_completion (h : NextInLine s n) (hq : Queue s) {stage : Stage} {group : Group}
    (hplace : (s.call i).place = .writing stage group) (hn : n ≠ i)
    (hwriters : s.writers = s.members group ++ s'.writers) : NextInLine s' n := by
  obtain ⟨before, behind, hw, rfl | ⟨j, stage', group', hj, hmembers⟩⟩ := h
  · have hfront := hq.front_writing hplace
    rw [hw] at hfront
    exact absurd (some.inj hfront) hn
  · obtain rfl := hq.eq_of_writing (hq.front_writing hplace) hj
    rw [hplace] at hj
    cases hj
    rw [hw, ← hmembers] at hwriters
    exact ⟨[], behind, (append_cancel_left hwriters).symm, Or.inl rfl⟩

end NextInLine

/-- What holds at the places of a null batch that nobody else can take into a group. -/
def Phase (old : List (Entry Bytes Bytes)) (n : ℕ) (s : QueueState) : Place → Prop
  | .queued => NextInLine s n
  | .makingRoom _ force => force = false → Emptied old s
  | .writing _ _ => False
  | .flushing => Emptied old s
  | .returned status => status = .ok → Emptied old s ∧ ∀ e ∈ old, e ∉ s.db.immEntries

theorem Phase.keep (h : Phase old n s (s.call n).place) (hq : Queue s)
    (hs : Move o fails pushes errors s s') (hplace : (s'.call n).place = (s.call n).place)
    (hnext : NextInLine s n → NextInLine s' n) : Phase old n s' (s'.call n).place := by
  rw [hplace]
  cases hp : (s.call n).place with
  | queued =>
    rw [hp] at h
    exact hnext h
  | makingRoom allow_delay force =>
    rw [hp] at h
    exact fun hforce => (h hforce).move hq hs
  | writing stage group =>
    rw [hp] at h
    exact h
  | flushing =>
    rw [hp] at h
    exact Emptied.move h hq hs
  | returned status =>
    rw [hp] at h
    exact fun hok => ⟨(h hok).1.move hq hs, (h hok).1.imm_move (h hok).2 hq hs⟩

theorem Completion.place_of_ne {last : ℕ} {room status : Status}
    (h : Completion s i last room status s') (hn : n ≠ i) :
    (s'.call n).place = (s.call n).place := by
  by_cases hmem : n ∈ upTo last s.writers
  · rw [h.member n hn hmem]
  · rw [h.other n hn hmem]

/-- The invariant of a forced flush. -/
structure Forcing (old : List (Entry Bytes Bytes)) (n : ℕ) (s : QueueState) : Prop where
  born : n < s.pushed
  null : (s.call n).batch = none
  added : ∀ e ∈ old, e ∈ s.added
  phase : Phase old n s (s.call n).place

namespace Forcing

theorem not_writing (h : Forcing old n s) {stage : Stage} {group : Group}
    (hplace : (s.call i).place = .writing stage group) : n ≠ i := by
  rintro rfl
  have := h.phase
  rw [hplace] at this
  exact this

theorem not_next (hq : Queue s) {allow_delay force : Bool}
    (hplace : (s.call i).place = .makingRoom allow_delay force) (hn : n ≠ i) :
    ¬ NextInLine s n := by
  intro hnext
  rcases hnext.front hq (hq.front_room hplace) with rfl | ⟨stage, group, hwriting⟩
  · exact hn rfl
  · cases hplace.symm.trans hwriting

theorem phase_move (h : Forcing old n s) (hq : Queue s) (hst : Stored o s)
    (hs : Move o fails pushes errors s s') : Phase old n s' (s'.call n).place := by
  have hmove := hs
  have hphase := h.phase
  cases hs with
  | push hpushes batch sync =>
    have hother : ∀ j, j ≠ s.pushed → (s.pushCall batch sync).call j = s.call j :=
      fun j hj => update_of_ne hj _ _
    refine hphase.keep hq hmove (by rw [hother n (Nat.ne_of_lt h.born)]) fun hnext => ?_
    refine hnext.congr hq [s.pushed] rfl fun j stage group hj => ⟨stage, ?_⟩
    rw [hother j fun heq => ?_]
    · exact hj
    · rw [heq, (hq.unborn _ le_rfl).1] at hj
      cases hj
  | @enter i hfront hplace =>
    by_cases hn : n = i
    · subst hn
      rw [place_setPlace_self, h.null]
      exact fun hforce => absurd hforce Bool.false_ne_true.symm
    · refine hphase.keep hq hmove (by rw [call_setPlace_of_ne s hn]) fun hnext => ?_
      rcases hnext.front hq hfront with rfl | ⟨stage, group, hwriting⟩
      · exact absurd rfl hn
      · cases hplace.symm.trans hwriting
  | @release i allow_delay force hplace allow_delay' =>
    by_cases hn : n = i
    · subst hn
      rw [hplace] at hphase
      rw [place_setPlace_self]
      exact fun hforce => (hphase hforce).move hq hmove
    · exact hphase.keep hq hmove (by rw [call_setPlace_of_ne s hn])
        fun hnext => absurd hnext (not_next hq hplace hn)
  | @switch i allow_delay force db hplace hdb =>
    by_cases hn : n = i
    · subst hn
      have hlast := hst.last_of_front hq (hq.front_room hplace) fun group heq =>
        Place.noConfusion (hplace.symm.trans heq)
      obtain ⟨-, rfl⟩ := DBState.switchMemTable_some hdb
      rw [show _ = Place.makingRoom allow_delay false from place_setPlace_self s n _]
      exact fun _ => ⟨fun _ _ => not_mem_nil, fun e he => hlast e (h.added e he)⟩
    · exact hphase.keep hq hmove (congrArg Call.place (call_setPlace_of_ne s hn _))
        fun hnext => absurd hnext (not_next hq hplace hn)
  | @refuse _ i _ _ status hplace hstatus hcause hs =>
    have hc := completion_of_complete (Queue.mem_of_front (hq.front_room hplace)) hs
    by_cases hn : n = i
    · subst hn
      have hleader : (s'.call n).place = .returned status := by
        rw [hc.leader]
        exact if_neg fun hok => hstatus hok.2
      rw [hleader]
      exact fun hok => absurd hok hstatus
    · exact hphase.keep hq hmove (hc.place_of_ne hn)
        fun hnext => absurd hnext (not_next hq hplace hn)
  | @forced _ i _ hplace herror hbatch hs =>
    have hc := completion_of_complete (Queue.mem_of_front (hq.front_room hplace)) hs
    by_cases hn : n = i
    · subst hn
      have hleader : (s'.call n).place = .flushing := by
        rw [hc.leader]
        exact if_pos ⟨isNone_iff_eq_none.2 hbatch, rfl⟩
      rw [hplace] at hphase
      rw [hleader]
      exact Emptied.move (hphase rfl) hq hmove
    · exact hphase.keep hq hmove (hc.place_of_ne hn)
        fun hnext => absurd hnext (not_next hq hplace hn)
  | @start _ i _ hplace herror hbatch hs =>
    obtain ⟨stage, group, hstarted⟩ := startGroup_spec hq hplace hs
    have hn : n ≠ i := by
      rintro rfl
      rw [h.null] at hbatch
      cases hbatch
    exact hphase.keep hq hmove (by rw [hstarted.other n hn])
      fun hnext => absurd hnext (not_next hq hplace hn)
  | @record i group hplace stage hstage record =>
    have hn := h.not_writing hplace
    refine hphase.keep hq hmove (congrArg Call.place (call_setPlace_of_ne s hn _)) fun hnext =>
      hnext.setPlace hq (fun _ group' heq => ⟨stage, ?_⟩) _
    cases hplace.symm.trans heq
    rfl
  | @synced i group hplace =>
    have hn := h.not_writing hplace
    refine hphase.keep hq hmove (congrArg Call.place (call_setPlace_of_ne s hn _)) fun hnext =>
      hnext.setPlace hq (fun _ group' heq => ⟨.insertInto, ?_⟩) s.log
    cases hplace.symm.trans heq
    rfl
  | @fail i stage group hfails hplace hstage status hstatus =>
    have hn := h.not_writing hplace
    refine hphase.keep hq hmove (congrArg Call.place (call_setPlace_of_ne s hn _)) fun hnext =>
      hnext.setPlace hq (fun _ group' heq => ⟨.lock status, ?_⟩) s.log
    cases hplace.symm.trans heq
    rfl
  | @insert _ i group hplace hs =>
    have hn := h.not_writing hplace
    have hs := insertInto_spec hq hplace hs
    refine hphase.keep hq hmove ?_ fun hnext => hnext.congr hq [] ?_
      fun j stage group' hj => ?_
    · rw [hs.call, call_setPlace_of_ne s hn]
    · rw [hs.same.writers, append_nil]
    · obtain rfl := hq.eq_of_writing (hq.front_writing hplace) hj
      rw [hs.call, place_setPlace_self]
      cases hplace.symm.trans hj
      exact ⟨_, rfl⟩
  | @finish _ i group status hplace hs =>
    have hn := h.not_writing hplace
    obtain ⟨-, hc⟩ := completion_of_finishGroup (hq.group i _ group hplace).last hs
    exact hphase.keep hq hmove (hc.place_of_ne hn)
      fun hnext => hnext.of_completion hq hplace hn hc.split
  | @leave i hplace hdone =>
    have hn : n ≠ i := by
      rintro rfl
      rw [hplace] at hphase
      rw [hq.pending_done n hphase.mem] at hdone
      cases hdone
    exact hphase.keep hq hmove (congrArg Call.place (call_setPlace_of_ne s hn _)) fun hnext =>
      hnext.setPlace hq (fun stage group heq => Place.noConfusion (hplace.symm.trans heq)) s.log
  | @flushed i hplace hwait =>
    by_cases hn : n = i
    · subst hn
      rw [hplace] at hphase
      rw [place_setPlace_self]
      intro hok
      refine ⟨hphase.move hq hmove, ?_⟩
      rintro e he ⟨imm, himm, -⟩
      have hsome : s.db.imm.isSome = true := isSome_iff_exists.2 ⟨imm, himm⟩
      rw [if_pos hsome] at hok
      exact hwait hsome hok
    · exact hphase.keep hq hmove (congrArg Call.place (call_setPlace_of_ne s hn _)) fun hnext =>
        hnext.setPlace hq (fun stage group heq => Place.noConfusion (hplace.symm.trans heq)) s.log
  | background haction hdb =>
    exact hphase.keep hq hmove rfl fun hnext => hnext.congr hq []
      (append_nil _).symm fun j stage group hj => ⟨stage, hj⟩
  | error herrors herror status =>
    exact hphase.keep hq hmove rfl fun hnext => hnext.congr hq []
      (append_nil _).symm fun j stage group hj => ⟨stage, hj⟩

theorem move (h : Forcing old n s) (hq : Queue s) (hst : Stored o s)
    (hs : Move o fails pushes errors s s') : Forcing old n s' := by
  obtain ⟨hpushed, hadded, hbatch⟩ := hs.history hq
  refine ⟨h.born.trans_le hpushed, ?_, fun e he => hadded e (h.added e he), h.phase_move hq hst hs⟩
  have := hbatch n h.born
  rwa [h.null, isSome_none, isSome_eq_false_iff, isNone_iff_eq_none] at this

end Forcing

/-! ### Runs -/

/-- A run in which a null batch is forcing the memtable to disk. -/
structure TrackedForcing (o : QueueOptions) (old : List (Entry Bytes Bytes)) (n : ℕ)
    (s : QueueState) : Prop where
  tracked : Tracked o s
  forcing : Forcing old n s

namespace TrackedForcing

theorem moves (h : TrackedForcing o old n s) (hs : Moves o fails pushes errors s s') :
    TrackedForcing o old n s' := by
  induction hs with
  | refl => exact h
  | tail _ hmove ih =>
    exact ⟨ih.tracked.move hmove, ih.forcing.move ih.tracked.queue ih.tracked.stored hmove⟩

theorem run {as : List QueueAction} (h : TrackedForcing o old n s)
    (hrun : Steps.run (queueStep o) s as = some s') : TrackedForcing o old n s' := by
  have hstep : ∀ s a s', TrackedForcing o old n s → True → queueStep o s a = some s' →
      TrackedForcing o old n s' := fun s a s' h _ hs => h.moves (moves_of_step hs)
  exact Steps.invariant hstep h (Steps.meets_true _ _) hrun

theorem pushCall (h : Tracked o s) (hwaits : s.noneWaits = true) :
    TrackedForcing o s.added s.pushed (s.pushCall none false) := by
  refine ⟨h.move (.push s trivial none false : Move o True True True s _), Nat.lt_succ_self _, ?_,
    fun _ => id, ?_⟩
  · show (update s.call s.pushed _ s.pushed).batch = none
    rw [update_self]
  · rw [s.place_pushCall]
    exact nextInLine_pushCall h.queue hwaits none false

end TrackedForcing

theorem Stored.applied_of_returned (h : Stored o s) (hq : Queue s)
    (hbatch : (s.call i).batch.isSome = true) (hplace : (s.call i).place = .returned .ok) :
    ∃ sequence, (i, batchEntries sequence (s.ops i)) ∈ s.applied := by
  obtain ⟨c, hc, hi⟩ := hq.completed_of_place hplace id
  have hleft := hq.left c hc i hi
  rw [Call.Left, hplace] at hleft
  have happlied : i ∈ s.applied.map Prod.fst := by
    rw [hq.applied]
    refine mem_filter.2 ⟨mem_append_left _ (mem_flatMap.2 ⟨c, ?_, hi⟩), hbatch⟩
    exact mem_filter.2 ⟨hc, decide_eq_true (hleft hbatch).symm⟩
  obtain ⟨⟨j, entries⟩, hp, rfl⟩ := mem_map.1 happlied
  obtain ⟨sequence, heq⟩ := h.part _ hp
  exact ⟨sequence, heq ▸ hp⟩

/-- **Forcing the memtable to disk.**  If every writer in the queue is part of the group that is
being written when `TEST_CompactMemTable` starts, and it returns without an error, then the
operations of all calls of `Write` that had returned before are in table files of the current
version, except for those that compactions have dropped, and not in memory. -/
theorem compactMemTable_empties (o : QueueOptions) (db : DBState Bytes Bytes)
    (hnumber : ∀ level, ∀ f ∈ db.current level, f.number < db.next_file_number)
    (hidle : db.compact = none) (before after : List QueueAction) (room : RoomInput)
    (s₁ s₂ : QueueState) (hbefore : Steps.run (queueStep o) (init db) before = some s₁)
    (hwaits : s₁.noneWaits = true)
    (hafter : Steps.run (queueStep o) s₁ (.compactMemTable room :: after) = some s₂)
    (hok : (s₂.call s₁.pushed).place = .returned .ok) (j : ℕ)
    (hbatch : (s₁.call j).batch.isSome = true) (hj : (s₁.call j).place = .returned .ok) :
    ∃ sequence, (j, batchEntries sequence (s₁.ops j)) ∈ s₁.applied ∧
      ∀ e ∈ batchEntries sequence (s₁.ops j), (e ∉ s₂.dropped → e ∈ s₂.db.storedEntries) ∧
        e ∉ s₂.db.mem ∧ e ∉ s₂.db.immEntries := by
  have hs₁ := (Tracked.init hnumber hidle).run hbefore
  rw [Steps.run] at hafter
  obtain ⟨s, hs, hafter⟩ := bind_eq_some_iff.1 hafter
  have hmoves : Moves o True True True (s₁.pushCall none false) s :=
    push_moves (fun _ => trivial) hs
  have hs₂ := ((TrackedForcing.pushCall hs₁ hwaits).moves hmoves).run hafter
  have hphase := hs₂.forcing.phase
  rw [hok] at hphase
  obtain ⟨hempty, himm⟩ := hphase rfl
  obtain ⟨sequence, happlied⟩ := hs₁.stored.applied_of_returned hs₁.queue hbatch hj
  refine ⟨sequence, happlied, fun e he => ?_⟩
  have hadded : e ∈ s₁.added := by
    rw [hs₁.queue.added]
    exact mem_flatMap.2 ⟨_, happlied, he⟩
  refine ⟨fun hdropped => ?_, hempty.mem e hadded, himm e hadded⟩
  rcases hs₂.tracked.stored.found e (hs₂.forcing.added e hadded) with (hin | hin | hin) | hin
  · exact absurd hin (hempty.mem e hadded)
  · exact absurd hin (himm e hadded)
  · exact hin
  · exact absurd hin hdropped

namespace ForcedFlushRun

open GroupCommitRun

/-- A call of `Write` from start to end. -/
def first : List QueueAction :=
  [.write (batch 97) false room, .addRecord 0 .ok, .insertInto 0, .lock 0]

/-- While the second call is writing a third one comes. -/
def second : List QueueAction :=
  [.write (batch 98) false room, .write (batch 99) false room]

/-- The third call takes the null batch of the fourth one into its group. -/
def absorbed : List QueueAction :=
  [.addRecord 1 .ok, .insertInto 1, .lock 1, .awake 2 room, .addRecord 2 .ok, .insertInto 2,
    .lock 2,
    .awake 3 room, .flushed 3]

end ForcedFlushRun

open GroupCommitRun ForcedFlushRun in
theorem compactMemTable_empties_alone :
    ∃ s₁ s₂, Steps.run (queueStep options) (init DBState.init) first = some s₁ ∧
      Steps.run (queueStep options) s₁
        [.compactMemTable room, .background .compactMemTable, .flushed 1] = some s₂ ∧
      (s₂.call 1).place = .returned .ok ∧
      ∃ sequence, (0, batchEntries sequence (s₁.ops 0)) ∈ s₁.applied ∧
        ∀ e ∈ batchEntries sequence (s₁.ops 0), (e ∉ s₂.dropped → e ∈ s₂.db.storedEntries) ∧
          e ∉ s₂.db.mem ∧ e ∉ s₂.db.immEntries := by
  have hrun : (Steps.run (queueStep options) (init DBState.init) first).map (fun s =>
      (s.pushed, s.noneWaits, (s.call 0).batch.isSome, (s.call 0).place)) =
        some (1, true, true, .returned .ok) := by
    decide +kernel
  have hflush : ((Steps.run (queueStep options) (init DBState.init) first).bind fun s₁ =>
      Steps.run (queueStep options) s₁
        [.compactMemTable room, .background .compactMemTable, .flushed 1]).map
          (fun s => (s.call 1).place) = some (.returned .ok) := by
    decide +kernel
  obtain ⟨s₁, hs₁, heq⟩ := map_eq_some_iff.1 hrun
  obtain ⟨hpushed, heq⟩ := Prod.mk.inj heq
  obtain ⟨hwaits, heq⟩ := Prod.mk.inj heq
  obtain ⟨hbatch, hplace⟩ := Prod.mk.inj heq
  rw [hs₁] at hflush
  obtain ⟨s₂, hs₂, hok⟩ := map_eq_some_iff.1 hflush
  rw [bind_some] at hs₂
  exact ⟨s₁, s₂, hs₁, hs₂, hok, compactMemTable_empties options DBState.init
    (fun level f hf => absurd hf not_mem_nil) rfl first _ room s₁ s₂ hs₁ hwaits hs₂
    (by rw [hpushed]; exact hok) 0 hbatch hplace⟩

open GroupCommitRun ForcedFlushRun in
/-- A null batch that comes behind a waiting writer: its call returns without an error, and what was
written before is in the memtable as it was. -/
theorem compactMemTable_absorbed :
    ∃ s₁ s₂, Steps.run (queueStep options) (init DBState.init) (first ++ second) = some s₁ ∧
      Steps.run (queueStep options) s₁ (.compactMemTable room :: absorbed) = some s₂ ∧
      (s₁.call 0).batch.isSome = true ∧ (s₁.call 0).place = .returned .ok ∧
      (0, [(⟨[97], 1, .value⟩, [])]) ∈ s₁.applied ∧
      (s₂.call s₁.pushed).place = .returned .ok ∧
      ((⟨[97], 1, .value⟩, []) : Entry Bytes Bytes) ∈ s₂.db.mem ∧
      ∀ level < kNumLevels, s₂.db.current level = [] := by
  have hrun : (Steps.run (queueStep options) (init DBState.init) (first ++ second)).map (fun s =>
      (s.pushed, (s.call 0).batch.isSome, (s.call 0).place, s.applied.map Prod.fst,
        decide (s.applied.flatMap Prod.snd = [(⟨[97], 1, .value⟩, [])]))) =
          some (3, true, .returned .ok, [0], true) := by
    decide +kernel
  have habsorbed : ((Steps.run (queueStep options) (init DBState.init) (first ++ second)).bind
      fun s₁ => Steps.run (queueStep options) s₁ (.compactMemTable room :: absorbed)).map (fun s =>
        ((s.call 3).place, decide ((⟨[97], 1, .value⟩, []) ∈ s.db.mem),
          decide (∀ level < kNumLevels, s.db.current level = []))) =
            some (.returned .ok, true, true) := by
    decide +kernel
  obtain ⟨s₁, hs₁, heq⟩ := map_eq_some_iff.1 hrun
  obtain ⟨hpushed, heq⟩ := Prod.mk.inj heq
  obtain ⟨hbatch, heq⟩ := Prod.mk.inj heq
  obtain ⟨hplace, heq⟩ := Prod.mk.inj heq
  obtain ⟨hcalls, hentries⟩ := Prod.mk.inj heq
  rw [hs₁] at habsorbed
  obtain ⟨s₂, hs₂, heq⟩ := map_eq_some_iff.1 habsorbed
  obtain ⟨hok, heq⟩ := Prod.mk.inj heq
  obtain ⟨hmem, hfiles⟩ := Prod.mk.inj heq
  refine ⟨s₁, s₂, hs₁, hs₂, hbatch, hplace, ?_, ?_, of_decide_eq_true hmem,
    of_decide_eq_true hfiles⟩
  · obtain ⟨⟨i, entries⟩, happlied, rfl⟩ := map_eq_singleton_iff.1 hcalls
    have hentries := of_decide_eq_true hentries
    rw [happlied, flatMap_singleton] at hentries
    rw [happlied, ← hentries]
    exact mem_singleton_self _
  · rw [hpushed]
    exact hok

end QueueState

end Bourbon
