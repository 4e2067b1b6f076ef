import Bourbon.Db.QueueMoves

/-!
# The invariant of the writer queue

Calls leave the queue in the order in which they came, a group at a time.  Only the writer at the
front does more than wait.

* `Queue` : completed groups and the queue are all calls in their order; a group that is being
  written is the front part of the queue, with all of its operations in one batch;
* `Completion`, `Queue.of_completion` : the end of a group;
* `Queue.pushCall` : new calls.
-/

namespace Bourbon

open List Function

namespace QueueState

/-! ### The queue up to a writer -/

variable {last : ℕ}

theorem upTo_eq {init rest : List ℕ} (hlast : last ∉ init) :
    upTo last (init ++ last :: rest) = init ++ [last] := by
  rw [upTo, takeWhile_append_of_pos, takeWhile_cons_of_neg (by simp), append_nil]
  intro j hj
  rw [decide_eq_true_eq]
  rintro rfl
  exact hlast hj

variable {writers : List ℕ}

theorem exists_upTo (hlast : last ∈ writers) :
    ∃ rest, writers = upTo last writers ++ rest := by
  obtain ⟨init, rest, rfl, hinit⟩ := eq_append_cons_of_mem hlast
  exact ⟨rest, by rw [upTo_eq hinit, append_assoc]; rfl⟩

theorem upTo_append (hlast : last ∈ writers) (more : List ℕ) :
    upTo last (writers ++ more) = upTo last writers := by
  obtain ⟨init, rest, rfl, hinit⟩ := eq_append_cons_of_mem hlast
  rw [upTo_eq hinit, append_assoc, cons_append, upTo_eq hinit]

theorem mem_of_mem_upTo {j : ℕ} (hlast : last ∈ writers)
    (hj : j ∈ upTo last writers) : j ∈ writers := by
  obtain ⟨rest, hrest⟩ := exists_upTo hlast
  rw [hrest]
  exact mem_append_left _ hj

theorem head?_upTo (hlast : last ∈ writers) :
    (upTo last writers).head? = writers.head? := by
  obtain ⟨init, rest, rfl, hinit⟩ := eq_append_cons_of_mem hlast
  rw [upTo_eq hinit]
  cases init <;> rfl

theorem upTo_head (i : ℕ) (rest : List ℕ) : upTo i (i :: rest) = [i] :=
  upTo_eq (not_mem_nil)

/-! ### Calls -/

end QueueState

/-- A call at this place is in the queue. -/
def Place.InQueue : Place → Prop
  | .queued => True
  | .makingRoom _ _ => True
  | .writing _ _ => True
  | _ => False

/-- The group of a call has been completed with the status. -/
def Call.Left (c : Call) (status : Status) : Prop :=
  match c.place with
  | .queued => c.done = true ∧ c.status = status
  | .flushing => c.batch = none
  | .returned result => c.batch.isSome = true → result = status
  | _ => False

namespace QueueState

variable {o : QueueOptions} {fails : Prop} {s s' : QueueState} {i : ℕ}

/-- The group of the writer at the front, if it has been inserted. -/
def pending (s : QueueState) : List ℕ :=
  match s.writers with
  | [] => []
  | i :: _ =>
    match (s.call i).place with
    | .writing (.lock .ok) group => s.members group
    | _ => []

/-- The members of groups without errors. -/
def committed (s : QueueState) : List ℕ :=
  ((s.completed.filter fun c => c.status = .ok).flatMap Completed.members) ++ s.pending

/-- What holds of a group from the time it has been built. -/
structure GroupOk (s : QueueState) (i : ℕ) (group : Group) : Prop where
  last : group.last_writer ∈ s.writers
  updates : ∃ b, s.updates i group = some b ∧
    b.iterate = (.ok, (s.members group).flatMap s.ops) ∧ b.sequence = s.db.last_sequence + 1
  last_sequence : group.last_sequence =
    s.db.last_sequence + ((s.members group).flatMap s.ops).length
  /-- A sync write is not part of a group of one that does not sync. -/
  sync : ∀ j ∈ s.members group, (s.call j).sync = true → (s.call i).sync = true

/-- The invariant of the queue. -/
structure Queue (s : QueueState) : Prop where
  order : s.completed.flatMap Completed.members ++ s.writers = List.range s.pushed
  pending_done : ∀ i ∈ s.writers, (s.call i).done = false
  inside : ∀ i ∈ s.writers, (s.call i).place.InQueue
  behind : ∀ i ∈ s.writers.tail, (s.call i).place = .queued
  unborn : ∀ i, s.pushed ≤ i → (s.call i).place = .queued ∧ (s.call i).done = false
  group : ∀ i stage group, (s.call i).place = .writing stage group → GroupOk s i group
  tmp : (∀ i stage group, (s.call i).place = .writing stage group → group.own = true) →
    s.tmp_batch = .new
  left : ∀ c ∈ s.completed, ∀ i ∈ c.members, (s.call i).Left c.status
  leader : ∀ c ∈ s.completed, c.leader ∈ c.members
  synced : ∀ c ∈ s.completed, ∀ i ∈ c.members,
    (s.call i).sync = true → (s.call c.leader).sync = true
  added : s.added = s.applied.flatMap Prod.snd
  applied : s.applied.map Prod.fst = s.committed.filter fun i => (s.call i).batch.isSome

namespace Queue

theorem nodup (h : Queue s) : (s.completed.flatMap Completed.members ++ s.writers).Nodup := by
  rw [h.order]
  exact nodup_range

variable {c : Completed} {j : ℕ}

theorem not_mem_writers (h : Queue s) (hc : c ∈ s.completed)
    (hj : j ∈ c.members) : j ∉ s.writers := fun hmem =>
  disjoint_of_nodup_append h.nodup (mem_flatMap.2 ⟨c, hc, hj⟩) hmem

theorem lt_pushed (h : Queue s) (hj : j ∈ s.writers) : j < s.pushed := by
  have : j ∈ List.range s.pushed := by
    rw [← h.order]
    exact mem_append_right _ hj
  exact mem_range.1 this

theorem lt_of_completed (h : Queue s) (hc : c ∈ s.completed)
    (hj : j ∈ c.members) : j < s.pushed := by
  have : j ∈ List.range s.pushed := by
    rw [← h.order]
    exact mem_append_left _ (mem_flatMap.2 ⟨c, hc, hj⟩)
  exact mem_range.1 this

theorem completed_or_mem (h : Queue s) (hj : j < s.pushed) :
    (∃ c ∈ s.completed, j ∈ c.members) ∨ j ∈ s.writers := by
  have : j ∈ s.completed.flatMap Completed.members ++ s.writers := by
    rw [h.order]
    exact mem_range.2 hj
  exact (mem_append.1 this).imp_left mem_flatMap.1

theorem front (h : Queue s) (hin : (s.call i).place.InQueue)
    (hbusy : (s.call i).place ≠ .queued) : s.writers.head? = some i := by
  have hlt : i < s.pushed := by
    by_contra hle
    exact hbusy (h.unborn i (not_lt.1 hle)).1
  rcases h.completed_or_mem hlt with ⟨c, hc, hi⟩ | hi
  · have hleft := h.left c hc i hi
    rw [Call.Left] at hleft
    cases hplace : (s.call i).place with
    | queued => exact absurd hplace hbusy
    | makingRoom _ _ =>
      simp only [hplace] at hleft
    | writing _ _ =>
      simp only [hplace] at hleft
    | flushing =>
      rw [hplace] at hin
      exact hin.elim
    | returned _ =>
      rw [hplace] at hin
      exact hin.elim
  · cases hw : s.writers with
    | nil =>
      rw [hw] at hi
      cases hi
    | cons j rest =>
      rw [hw] at hi
      rcases mem_cons.1 hi with rfl | hi
      · rfl
      · exact absurd (h.behind i (by rw [hw]; exact hi)) hbusy

theorem front_room (h : Queue s) {allow_delay force : Bool}
    (hplace : (s.call i).place = .makingRoom allow_delay force) : s.writers.head? = some i :=
  h.front (by rw [hplace]; exact trivial) (by rw [hplace]; exact Place.noConfusion)

variable {stage : Stage} {group : Group}

theorem front_writing (h : Queue s)
    (hplace : (s.call i).place = .writing stage group) : s.writers.head? = some i :=
  h.front (by rw [hplace]; exact trivial) (by rw [hplace]; exact Place.noConfusion)

theorem eq_of_writing (h : Queue s) (hfront : s.writers.head? = some i)
    (hplace : (s.call j).place = .writing stage group) : j = i := by
  have := h.front_writing hplace
  rwa [hfront, Option.some.injEq, eq_comm] at this

theorem mem_of_front (hfront : s.writers.head? = some i) : i ∈ s.writers :=
  mem_of_mem_head? hfront

theorem mem_tail (hfront : s.writers.head? = some i) (hj : j ∈ s.writers) (hji : j ≠ i) :
    j ∈ s.writers.tail := by
  cases hw : s.writers with
  | nil =>
    rw [hw] at hj
    cases hj
  | cons k rest =>
    rw [hw] at hj hfront
    cases hfront
    exact (mem_cons.1 hj).resolve_left hji

theorem ne_of_mem_tail (h : Queue s) (hfront : s.writers.head? = some i)
    (hj : j ∈ s.writers.tail) : j ≠ i := by
  have hnodup := (nodup_append.1 h.nodup).2.1
  cases hw : s.writers with
  | nil =>
    rw [hw] at hj
    cases hj
  | cons k rest =>
    rw [hw] at hfront hj hnodup
    cases hfront
    rintro rfl
    exact (nodup_cons.1 hnodup).1 hj

end Queue

variable {j : ℕ}

theorem ops_congr (h : (s'.call j).batch = (s.call j).batch) : s'.ops j = s.ops j := by
  unfold ops
  rw [h]

variable {group : Group}

theorem GroupOk.congr (h : GroupOk s i group) (hi : i ∈ s.writers)
    {more : List ℕ} (hwriters : s'.writers = s.writers ++ more)
    (hlast : s'.db.last_sequence = s.db.last_sequence) (htmp : s'.tmp_batch = s.tmp_batch)
    (hcall : ∀ j ∈ s.writers, (s'.call j).batch = (s.call j).batch ∧
      (s'.call j).sync = (s.call j).sync) : GroupOk s' i group := by
  have hmembers : s'.members group = s.members group := by
    rw [members, members, hwriters, upTo_append h.last]
  have hmem : ∀ j ∈ s.members group, j ∈ s.writers := fun j => mem_of_mem_upTo h.last
  have hops : (s'.members group).flatMap s'.ops = (s.members group).flatMap s.ops := by
    rw [hmembers]
    exact flatMap_congr fun j hj => ops_congr (hcall j (hmem j hj)).1
  have hupdates : s'.updates i group = s.updates i group := by
    rw [QueueState.updates, QueueState.updates, htmp, (hcall i hi).1]
  refine ⟨?_, ?_, ?_, ?_⟩
  · rw [hwriters]
    exact mem_append_left _ h.last
  · rw [hupdates, hops, hlast]
    exact h.updates
  · rw [hops, hlast]
    exact h.last_sequence
  · intro j hj hsync
    rw [hmembers] at hj
    rw [(hcall j (hmem j hj)).2] at hsync
    rw [(hcall i hi).2]
    exact h.sync j hj hsync

/-- The group of a call has been inserted. -/
def Inserted (s : QueueState) (i : ℕ) : Prop :=
  ∃ group, (s.call i).place = .writing (.lock .ok) group

theorem pending_of_lock (hfront : s.writers.head? = some i)
    (hplace : (s.call i).place = .writing (.lock .ok) group) : s.pending = s.members group := by
  unfold pending
  cases hw : s.writers with
  | nil =>
    rw [hw] at hfront
    cases hfront
  | cons j rest =>
    rw [hw] at hfront
    cases hfront
    simp only [hplace]

theorem pending_eq_nil (h : ∀ i, s.writers.head? = some i → ¬ s.Inserted i) : s.pending = [] := by
  unfold pending
  cases hw : s.writers with
  | nil => rfl
  | cons j rest =>
    dsimp only
    split
    · rename_i group hplace
      exact absurd ⟨group, hplace⟩ (h j (by rw [hw]; rfl))
    · rfl

/-- Two states that differ at most in the places of calls, and in what the queue does not depend
on. -/
structure SameQueue (s s' : QueueState) : Prop where
  writers : s'.writers = s.writers
  completed : s'.completed = s.completed
  pushed : s'.pushed = s.pushed
  last_sequence : s'.db.last_sequence = s.db.last_sequence
  ops : ∀ j, s'.ops j = s.ops j
  isSome : ∀ j, (s'.call j).batch.isSome = (s.call j).batch.isSome
  sync : ∀ j, (s'.call j).sync = (s.call j).sync
  done : ∀ j, (s'.call j).done = (s.call j).done

variable {db : DBState Bytes Bytes}

theorem sameQueue_setPlace (s : QueueState) (i : ℕ) (place : Place)
    (hlast : db.last_sequence = s.db.last_sequence) (log : List Bytes) :
    SameQueue s { s.setPlace i place with db := db, log := log } :=
  ⟨rfl, rfl, rfl, hlast, fun j => ops_congr (batch_setPlace s i j place),
    fun j => congrArg Option.isSome (batch_setPlace s i j place), fun _ => sync_setPlace _ _ _ _,
    fun _ => done_setPlace _ _ _ _⟩

namespace Queue

theorem of_sameQueue (h : Queue s) (hsame : SameQueue s s')
    (hinside : ∀ j ∈ s.writers, (s'.call j).place.InQueue)
    (hbehind : ∀ j ∈ s.writers.tail, (s'.call j).place = .queued)
    (hunborn : ∀ j, s.pushed ≤ j → (s'.call j).place = .queued)
    (hgroup : ∀ j stage group, (s'.call j).place = .writing stage group → GroupOk s' j group)
    (htmp : (∀ j stage group, (s'.call j).place = .writing stage group → group.own = true) →
      s'.tmp_batch = .new)
    (hleft : ∀ c ∈ s.completed, ∀ j ∈ c.members, (s'.call j).Left c.status)
    (hadded : s'.added = s'.applied.flatMap Prod.snd)
    (happlied : s'.applied.map Prod.fst =
      s'.committed.filter fun j => (s.call j).batch.isSome) : Queue s' := by
  refine
    { order := by rw [hsame.completed, hsame.writers, hsame.pushed]; exact h.order
      pending_done := fun j hj => ?_
      inside := fun j hj => hinside j (hsame.writers ▸ hj)
      behind := fun j hj => hbehind j (hsame.writers ▸ hj)
      unborn := fun j hj => ?_
      group := hgroup
      tmp := htmp
      left := fun c hc j hj => hleft c (hsame.completed ▸ hc) j hj
      leader := fun c hc => h.leader c (hsame.completed ▸ hc)
      synced := fun c hc j hj hsynced => ?_
      added := hadded
      applied := ?_ }
  · rw [hsame.writers] at hj
    rw [hsame.done]
    exact h.pending_done j hj
  · rw [hsame.pushed] at hj
    exact ⟨hunborn j hj, by rw [hsame.done]; exact (h.unborn j hj).2⟩
  · rw [hsame.completed] at hc
    rw [hsame.sync] at hsynced ⊢
    exact h.synced c hc j hj hsynced
  · simp only [hsame.isSome]
    exact happlied

theorem applied_congr (h : Queue s) (hcompleted : s'.completed = s.completed)
    (happlied : s'.applied = s.applied) (hpending : s'.pending = s.pending) :
    s'.applied.map Prod.fst = s'.committed.filter fun j => (s.call j).batch.isSome := by
  rw [happlied, h.applied, committed, committed, hcompleted, hpending]

theorem of_sameGroups (h : Queue s) (hsame : SameQueue s s') (happlied : s'.applied = s.applied)
    (hadded : s'.added = s.added) (hbatch : ∀ j, (s'.call j).batch = (s.call j).batch)
    (htmp : s'.tmp_batch = s.tmp_batch)
    (hinside : ∀ j ∈ s.writers, (s'.call j).place.InQueue)
    (hbehind : ∀ j ∈ s.writers.tail, (s'.call j).place = .queued)
    (hunborn : ∀ j, s.pushed ≤ j → (s'.call j).place = .queued)
    (hwriting : ∀ j group, (∃ stage, (s.call j).place = .writing stage group) ↔
      ∃ stage, (s'.call j).place = .writing stage group)
    (hleft : ∀ c ∈ s.completed, ∀ j ∈ c.members, (s'.call j).Left c.status)
    (hpending : s'.pending = s.pending) : Queue s' := by
  refine h.of_sameQueue hsame hinside hbehind hunborn (fun j stage group hplace => ?_)
    (fun hown => ?_) hleft (by rw [hadded, happlied]; exact h.added)
    (h.applied_congr hsame.completed happlied hpending)
  · obtain ⟨stage', hplace'⟩ := (hwriting j group).2 ⟨stage, hplace⟩
    refine (h.group j stage' group hplace').congr (mem_of_front (h.front_writing hplace'))
      (hsame.writers.trans (append_nil _).symm) hsame.last_sequence htmp ?_
    exact fun k _ => ⟨hbatch k, hsame.sync k⟩
  · rw [htmp]
    refine h.tmp fun j stage group hplace => ?_
    obtain ⟨stage', hplace'⟩ := (hwriting j group).1 ⟨stage, hplace⟩
    exact hown j stage' group hplace'

variable {place : Place} {db : DBState Bytes Bytes}

theorem setPlace (h : Queue s) (hfront : s.writers.head? = some i)
    (hin : place.InQueue)
    (hgroup : ∀ group, (∃ stage, (s.call i).place = .writing stage group) ↔
      ∃ stage, place = .writing stage group)
    (hbefore : ¬ s.Inserted i) (hafter : ∀ group, place ≠ .writing (.lock .ok) group)
    (hlast : db.last_sequence = s.db.last_sequence) (log : List Bytes) :
    Queue { s.setPlace i place with db := db, log := log } := by
  have hi : i ∈ s.writers := mem_of_front hfront
  refine h.of_sameGroups (sameQueue_setPlace s i place hlast log) rfl rfl
    (fun j => batch_setPlace s i j place) rfl (fun j hj => ?_) (fun j hj => ?_)
    (fun j hj => ?_) (fun j group => ?_) (fun c hc j hj => ?_) ?_
  · by_cases hji : j = i
    · rw [hji]
      exact (place_setPlace_self s i place).symm ▸ hin
    · exact (call_setPlace_of_ne s hji place).symm ▸ h.inside j hj
  · exact (call_setPlace_of_ne s (h.ne_of_mem_tail hfront hj) place).symm ▸ h.behind j hj
  · have hji : j ≠ i := fun heq => absurd (h.lt_pushed hi) (not_lt.2 (heq ▸ hj))
    exact (call_setPlace_of_ne s hji place).symm ▸ (h.unborn j hj).1
  · by_cases hji : j = i
    · rw [hji]
      exact (place_setPlace_self s i place).symm ▸ hgroup group
    · exact (call_setPlace_of_ne s hji place).symm ▸ Iff.rfl
  · have hji : j ≠ i := fun heq => h.not_mem_writers hc hj (heq ▸ hi)
    exact (call_setPlace_of_ne s hji place).symm ▸ h.left c hc j hj
  · rw [pending_eq_nil, pending_eq_nil]
    · intro j hj
      rw [hfront, Option.some.injEq] at hj
      exact hj ▸ hbefore
    · rintro j hj ⟨group, hplace⟩
      have hj : s.writers.head? = some j := hj
      rw [hfront, Option.some.injEq] at hj
      subst hj
      exact hafter group ((place_setPlace_self s i place).symm.trans hplace)

theorem setPlace_outside (h : Queue s) {c : Completed} (hc : c ∈ s.completed) (hi : i ∈ c.members)
    (hbefore : ∀ stage group, (s.call i).place ≠ .writing stage group)
    (hafter : ∀ stage group, place ≠ .writing stage group)
    (hleft : ∀ status, (s.call i).Left status →
      ({ s.call i with place := place } : Call).Left status) : Queue (s.setPlace i place) := by
  have hnot : i ∉ s.writers := h.not_mem_writers hc hi
  have hother : ∀ j ∈ s.writers, (s.setPlace i place).call j = s.call j := fun j hj =>
    call_setPlace_of_ne s (show j ≠ i from fun heq => hnot (heq ▸ hj)) place
  refine h.of_sameGroups (sameQueue_setPlace s i place rfl s.log) rfl rfl
    (fun j => batch_setPlace s i j place) rfl (fun j hj => ?_) (fun j hj => ?_)
    (fun j hj => ?_) (fun j group => ?_) (fun c' hc' j hj => ?_) ?_
  · rw [hother j hj]
    exact h.inside j hj
  · rw [hother j (mem_of_mem_tail hj)]
    exact h.behind j hj
  · have hlt : i < s.pushed := by
      by_contra hle
      have hplace := (h.unborn i (not_lt.1 hle))
      have hdone := h.left c hc i hi
      rw [Call.Left, hplace.1] at hdone
      rw [hplace.2] at hdone
      exact Bool.false_ne_true hdone.1
    have hji : j ≠ i := fun heq => absurd hlt (not_lt.2 (heq ▸ hj))
    exact (call_setPlace_of_ne s hji place).symm ▸ (h.unborn j hj).1
  · by_cases hji : j = i
    · subst hji
      refine iff_of_false ?_ ?_
      · rintro ⟨stage, hplace⟩
        exact hbefore stage group hplace
      · rintro ⟨stage, hplace⟩
        exact hafter stage group ((place_setPlace_self s j place).symm.trans hplace)
    · exact (call_setPlace_of_ne s hji place).symm ▸ Iff.rfl
  · by_cases hji : j = i
    · subst hji
      rw [call_setPlace, if_pos rfl]
      exact hleft c'.status (h.left c' hc' j hj)
    · exact (call_setPlace_of_ne s hji place).symm ▸ h.left c' hc' j hj
  · unfold pending
    cases hw : s.writers with
    | nil =>
      have hw' : (s.setPlace i place).writers = [] := hw
      rw [hw']
    | cons j rest =>
      have hw' : (s.setPlace i place).writers = j :: rest := hw
      rw [hw']
      dsimp only
      rw [hother j (by rw [hw]; exact mem_cons_self)]
      rfl

theorem congr_db (h : Queue s)
    (hlast : db.last_sequence = s.db.last_sequence) (bg_error : Status)
    (dropped : List (Entry Bytes Bytes)) :
    Queue { s with db := db, bg_error := bg_error, dropped := dropped } :=
  h.of_sameGroups ⟨rfl, rfl, rfl, hlast, fun _ => rfl, fun _ => rfl, fun _ => rfl, fun _ => rfl⟩
    rfl rfl (fun _ => rfl) rfl h.inside h.behind (fun j hj => (h.unborn j hj).1)
    (fun _ _ => Iff.rfl) h.left rfl

end Queue

theorem Queue.mem_of_mem_pending (h : Queue s) (hj : j ∈ s.pending) : j ∈ s.writers := by
  unfold pending at hj
  split at hj
  · cases hj
  · split at hj
    · rename_i group hplace
      exact mem_of_mem_upTo (h.group _ _ group hplace).last hj
    · cases hj

theorem Queue.lt_of_mem_committed (h : Queue s) (hj : j ∈ s.committed) :
    j < s.pushed := by
  rcases mem_append.1 hj with hj | hj
  · obtain ⟨c, hc, hj⟩ := mem_flatMap.1 hj
    exact h.lt_of_completed (mem_of_mem_filter hc) hj
  · exact h.lt_pushed (h.mem_of_mem_pending hj)

/-! ### The end of a group -/

variable {last : ℕ}

theorem popLoop_eq (i : ℕ) (status : Status) {writers : List ℕ} (hlast : last ∈ writers)
    (call : ℕ → Call) : ∃ rest call', writers = upTo last writers ++ rest ∧
      popLoop i last status writers call = some (upTo last writers, rest, call') ∧
      ∀ j, call' j = if j ≠ i ∧ j ∈ upTo last writers then
        { call j with status := status, done := true } else call j := by
  induction writers generalizing call with
  | nil => cases hlast
  | cons ready writers ih =>
    rw [popLoop]
    by_cases hready : ready = last
    · subst hready
      rw [upTo_head]
      refine ⟨writers, _, rfl, by rw [if_pos rfl], fun j => ?_⟩
      simp only [mem_singleton]
      by_cases hi : ready = i
      · subst hi
        rw [if_neg (not_not.2 rfl), if_neg fun h => h.1 h.2]
      · rw [if_pos hi, update_apply]
        by_cases hj : j = ready
        · subst hj
          rw [if_pos rfl, if_pos ⟨hi, rfl⟩]
        · rw [if_neg hj, if_neg fun h => hj h.2]
    · have hmem : last ∈ writers := (mem_cons.1 hlast).resolve_left fun h => hready h.symm
      have hupTo : upTo last (ready :: writers) = ready :: upTo last writers := by
        rw [upTo, upTo, takeWhile_cons_of_pos (by rw [decide_eq_true_eq]; exact hready)]
        rfl
      obtain ⟨rest, call', hrest, hpop, hcall⟩ := ih hmem (if ready ≠ i then
        update call ready { call ready with status := status, done := true } else call)
      refine ⟨rest, call', by rw [hupTo, cons_append, ← hrest], ?_, fun j => ?_⟩
      · dsimp only
        rw [if_neg hready, hpop, hupTo]
        rfl
      · rw [hcall, hupTo]
        simp only [mem_cons]
        by_cases hi : ready = i
        · subst hi
          rw [if_neg (not_not.2 rfl)]
          by_cases hj : j = ready
          · rw [if_neg fun h => h.1 hj, if_neg fun h => h.1 hj]
          · simp only [hj, false_or]
        · rw [if_pos hi]
          by_cases hj : j = ready
          · subst hj
            rw [update_self, if_pos (⟨hi, Or.inl rfl⟩ : j ≠ i ∧ _)]
            split_ifs <;> rfl
          · rw [update_of_ne hj]
            simp only [hj, false_or]

/-- What `complete` does. -/
structure Completion (s : QueueState) (i last : ℕ) (room status : Status) (s' : QueueState) :
    Prop where
  split : s.writers = upTo last s.writers ++ s'.writers
  completed : s'.completed = s.completed ++ [⟨i, upTo last s.writers, room, status⟩]
  pushed : s'.pushed = s.pushed
  applied : s'.applied = s.applied
  added : s'.added = s.added
  dropped : s'.dropped = s.dropped
  tmp_batch : s'.tmp_batch = s.tmp_batch
  db : s'.db = s.db
  bg_error : s'.bg_error = s.bg_error
  leader : s'.call i = { s.call i with
    place := if (s.call i).batch.isNone ∧ status = .ok then .flushing else .returned status }
  member : ∀ j, j ≠ i → j ∈ upTo last s.writers →
    s'.call j = { s.call j with status := status, done := true }
  other : ∀ j, j ≠ i → j ∉ upTo last s.writers → s'.call j = s.call j

variable {room status : Status}

theorem completion_of_complete (hlast : last ∈ s.writers)
    (hs : s.complete i last room status = some s') : Completion s i last room status s' := by
  obtain ⟨rest, call', hrest, hpop, hcall⟩ := popLoop_eq i status hlast s.call
  unfold complete at hs
  rw [hpop] at hs
  simp only [Option.some.injEq] at hs
  have hself : call' i = s.call i := by rw [hcall, if_neg fun h => h.1 rfl]
  subst hs
  refine ⟨hrest, rfl, rfl, rfl, rfl, rfl, rfl, rfl, rfl, ?_, fun j hj hmem => ?_,
    fun j hj hmem => ?_⟩
  · rw [leaveWrite, call_setPlace, if_pos rfl]
    simp only [hself]
  · rw [leaveWrite, call_setPlace_of_ne _ hj]
    exact (hcall j).trans (if_pos ⟨hj, hmem⟩)
  · rw [leaveWrite, call_setPlace_of_ne _ hj]
    exact (hcall j).trans (if_neg fun h => hmem h.2)

namespace Completion

variable {last : ℕ} {room status : Status}

theorem batch (h : Completion s i last room status s') (j : ℕ) :
    (s'.call j).batch = (s.call j).batch := by
  by_cases hji : j = i
  · rw [hji, h.leader]
  · by_cases hj : j ∈ upTo last s.writers
    · rw [h.member j hji hj]
    · rw [h.other j hji hj]

theorem sync (h : Completion s i last room status s') (j : ℕ) :
    (s'.call j).sync = (s.call j).sync := by
  by_cases hji : j = i
  · rw [hji, h.leader]
  · by_cases hj : j ∈ upTo last s.writers
    · rw [h.member j hji hj]
    · rw [h.other j hji hj]

/-- The writer at the front was the only one that could be writing. -/
theorem not_writing (h : Completion s i last room status s')
    (honly : ∀ j stage group, (s.call j).place = .writing stage group → j = i) (j : ℕ)
    (stage : Stage) (group : Group) : (s'.call j).place ≠ .writing stage group := by
  intro hplace
  by_cases hji : j = i
  · rw [hji, h.leader] at hplace
    dsimp only at hplace
    split_ifs at hplace
  · refine hji (honly j stage group ?_)
    by_cases hj : j ∈ upTo last s.writers
    · rwa [h.member j hji hj] at hplace
    · rwa [h.other j hji hj] at hplace

end Completion

/-- **The queue after a group has been completed.** -/
theorem Queue.of_completion (h : Queue s)
    (hfront : s.writers.head? = some i) (hlast : last ∈ s.writers)
    (hsync : ∀ j ∈ upTo last s.writers, (s.call j).sync = true → (s.call i).sync = true)
    (happlied : ((if status = .ok then upTo last s.writers else []).filter fun j =>
      (s.call j).batch.isSome) = s.pending.filter fun j => (s.call j).batch.isSome)
    {tmp_batch : WriteBatch} (htmp : tmp_batch = .new)
    (hc : Completion { s with tmp_batch := tmp_batch, db := db } i last room status s') :
    Queue s' := by
  have hsplit : s.writers = upTo last s.writers ++ s'.writers := hc.split
  have hcompleted : s'.completed = s.completed ++ [⟨i, upTo last s.writers, room, status⟩] :=
    hc.completed
  have hpushed : s'.pushed = s.pushed := hc.pushed
  have hbatch : ∀ j, (s'.call j).batch = (s.call j).batch := hc.batch
  have hsyncs : ∀ j, (s'.call j).sync = (s.call j).sync := hc.sync
  have hnodup := (nodup_append.1 h.nodup).2.1
  have hhead : i ∈ upTo last s.writers := by
    rw [← head?_upTo hlast] at hfront
    exact mem_of_mem_head? hfront
  have hmembers : ∀ j ∈ s'.writers, j ∉ upTo last s.writers := fun j hj hj' => by
    rw [hsplit] at hnodup
    exact disjoint_of_nodup_append hnodup hj' hj
  have hrest : ∀ j ∈ s'.writers, s'.call j = s.call j ∧ j ∈ s.writers.tail := fun j hj => by
    have hji : j ≠ i := fun heq => hmembers j hj (heq ▸ hhead)
    refine ⟨hc.other j hji (hmembers j hj), mem_tail hfront ?_ hji⟩
    rw [hsplit]
    exact mem_append_right _ hj
  have hpending : s'.pending = [] := pending_eq_nil fun j hj hin => by
    obtain ⟨group, hplace⟩ := hin
    have hmem := hrest j (mem_of_mem_head? hj)
    rw [hmem.1, h.behind j hmem.2] at hplace
    cases hplace
  have hnot := hc.not_writing fun j stage group hplace => h.eq_of_writing hfront hplace
  refine
    { order := ?_
      pending_done := fun j hj => ?_
      inside := fun j hj => ?_
      behind := fun j hj => ?_
      unborn := fun j hj => ?_
      group := fun j stage group hplace => absurd hplace (hnot j stage group)
      tmp := fun _ => hc.tmp_batch.trans htmp
      left := fun c hmem j hj => ?_
      leader := fun c hmem => ?_
      synced := fun c hmem j hj hsynced => ?_
      added := by rw [hc.added, hc.applied]; exact h.added
      applied := ?_ }
  · have horder := h.order
    rw [hsplit] at horder
    rw [hcompleted, flatMap_append, append_assoc, hpushed, flatMap_cons,
      flatMap_nil, append_nil]
    exact horder
  · rw [(hrest j hj).1]
    exact h.pending_done j (mem_of_mem_tail (hrest j hj).2)
  · rw [(hrest j hj).1]
    exact h.inside j (mem_of_mem_tail (hrest j hj).2)
  · have hj := mem_of_mem_tail hj
    rw [(hrest j hj).1]
    exact h.behind j (hrest j hj).2
  · rw [hpushed] at hj
    have hmem : j ∉ s.writers := fun hmem => absurd (h.lt_pushed hmem) (not_lt.2 hj)
    have hji : j ≠ i := fun heq => hmem (heq ▸ mem_of_front hfront)
    rw [hc.other j hji fun hj' => hmem (mem_of_mem_upTo hlast hj')]
    exact h.unborn j hj
  · rw [hcompleted] at hmem
    rcases mem_append.1 hmem with hmem | hmem
    · have hnot := h.not_mem_writers hmem hj
      have hji : j ≠ i := fun heq => hnot (heq ▸ mem_of_front hfront)
      rw [hc.other j hji fun hj' => hnot (mem_of_mem_upTo hlast hj')]
      exact h.left c hmem j hj
    · obtain rfl := mem_singleton.1 hmem
      by_cases hji : j = i
      · rw [hji, hc.leader, Call.Left]
        by_cases hflush : (s.call i).batch.isNone ∧ status = .ok
        · simp only [hflush, and_self, if_true]
          exact Option.isNone_iff_eq_none.1 hflush.1
        · simp only [hflush, if_false]
          exact fun _ => trivial
      · have hplace : (s.call j).place = .queued :=
          h.behind j (mem_tail hfront (mem_of_mem_upTo hlast hj) hji)
        rw [hc.member j hji hj, Call.Left]
        simp only [hplace, and_self]
  · rw [hcompleted] at hmem
    rcases mem_append.1 hmem with hmem | hmem
    · exact h.leader c hmem
    · obtain rfl := mem_singleton.1 hmem
      exact hhead
  · rw [hcompleted] at hmem
    rw [hsyncs] at hsynced ⊢
    rcases mem_append.1 hmem with hmem | hmem
    · exact h.synced c hmem j hj hsynced
    · obtain rfl := mem_singleton.1 hmem
      exact hsync j hj hsynced
  · have hstatus : (([⟨i, upTo last s.writers, room, status⟩] : List Completed).filter fun c =>
        c.status = .ok).flatMap Completed.members =
          if status = .ok then upTo last s.writers else [] := by
      by_cases hok : status = .ok
      · simp [hok]
      · simp [hok]
    have hold := h.applied
    rw [committed, filter_append, ← happlied] at hold
    rw [committed, hpending, append_nil, hcompleted, filter_append, flatMap_append,
      hstatus, filter_append]
    simp only [hbatch]
    exact hc.applied ▸ hold

/-! ### New calls -/

theorem Queue.pushCall (h : Queue s) (batch : Option ReadableBatch) (sync : Bool) :
    Queue (s.pushCall batch sync) := by
  have hself : (s.pushCall batch sync).call s.pushed = ⟨batch, sync, false, .ok, .queued⟩ :=
    update_self _ _ _
  have hother : ∀ j, j ≠ s.pushed → (s.pushCall batch sync).call j = s.call j :=
    fun j hj => update_of_ne hj _ _
  have hnew : ∀ j ∈ s.writers, j ≠ s.pushed := fun j hj => Nat.ne_of_lt (h.lt_pushed hj)
  have hwriters : (s.pushCall batch sync).writers = s.writers ++ [s.pushed] := rfl
  have hleft : ∀ c ∈ s.completed, ∀ j ∈ c.members, j ≠ s.pushed :=
    fun c hc j hj => Nat.ne_of_lt (h.lt_of_completed hc hj)
  have hwriting : ∀ j stage group, ((s.pushCall batch sync).call j).place = .writing stage group →
      j ≠ s.pushed := by
    rintro j stage group hplace rfl
    rw [hself] at hplace
    cases hplace
  have hpending : (s.pushCall batch sync).pending = s.pending := by
    cases hw : s.writers with
    | nil =>
      rw [pending_eq_nil, pending_eq_nil]
      · intro j hj
        rw [hw] at hj
        cases hj
      · rintro j hj ⟨group, hplace⟩
        rw [hwriters, hw] at hj
        cases hj
        exact hwriting _ _ group hplace rfl
    | cons k rest =>
      have hk : k ∈ s.writers := by
        rw [hw]
        exact mem_cons_self
      have hfront : s.writers.head? = some k := by rw [hw]; rfl
      have hfront' : (s.pushCall batch sync).writers.head? = some k := by rw [hwriters, hw]; rfl
      by_cases hin : s.Inserted k
      · obtain ⟨group, hplace⟩ := hin
        have hplace' : ((s.pushCall batch sync).call k).place = .writing (.lock .ok) group := by
          rw [hother k (hnew k hk)]
          exact hplace
        rw [pending_of_lock hfront hplace, pending_of_lock hfront' hplace', members, members,
          hwriters, upTo_append (h.group k _ group hplace).last]
      · rw [pending_eq_nil, pending_eq_nil]
        · intro j hj
          rw [hfront, Option.some.injEq] at hj
          exact hj ▸ hin
        · rintro j hj ⟨group, hplace⟩
          rw [hfront', Option.some.injEq] at hj
          subst hj
          rw [hother k (hnew k hk)] at hplace
          exact hin ⟨group, hplace⟩
  refine
    { order := ?_
      pending_done := fun j hj => ?_
      inside := fun j hj => ?_
      behind := fun j hj => ?_
      unborn := fun j hj => ?_
      group := fun j stage group hplace => ?_
      tmp := fun hown => h.tmp fun j stage group hplace => ?_
      left := fun c hc j hj => ?_
      leader := h.leader
      synced := fun c hc j hj hsynced => ?_
      added := h.added
      applied := ?_ }
  · rw [hwriters, ← append_assoc]
    exact (congrArg (· ++ [s.pushed]) h.order).trans range_succ.symm
  · rcases mem_append.1 (hwriters ▸ hj) with hj | hj
    · rw [hother j (hnew j hj)]
      exact h.pending_done j hj
    · rw [mem_singleton.1 hj, hself]
  · rcases mem_append.1 (hwriters ▸ hj) with hj | hj
    · rw [hother j (hnew j hj)]
      exact h.inside j hj
    · rw [mem_singleton.1 hj, hself]
      exact trivial
  · rw [hwriters] at hj
    cases hw : s.writers with
    | nil =>
      rw [hw] at hj
      cases hj
    | cons k rest =>
      rw [hw, cons_append, tail_cons] at hj
      rcases mem_append.1 hj with hj | hj
      · have hmem : j ∈ s.writers.tail := by
          rw [hw]
          exact hj
        rw [hother j (hnew j (mem_of_mem_tail hmem))]
        exact h.behind j hmem
      · rw [mem_singleton.1 hj, hself]
  · have hlt : s.pushed < j := hj
    rw [hother j (Nat.ne_of_gt hlt)]
    exact h.unborn j hlt.le
  · have hj := hwriting j stage group hplace
    rw [hother j hj] at hplace
    refine (h.group j stage group hplace).congr (mem_of_front (h.front_writing hplace)) hwriters rfl
      rfl fun k hk => ?_
    rw [hother k (hnew k hk)]
    exact ⟨rfl, rfl⟩
  · refine hown j stage group ?_
    rw [hother j (hnew j (mem_of_front (h.front_writing hplace)))]
    exact hplace
  · rw [hother j (hleft c hc j hj)]
    exact h.left c hc j hj
  · rw [hother j (hleft c hc j hj)] at hsynced
    rw [hother c.leader (hleft c hc _ (h.leader c hc))]
    exact h.synced c hc j hj hsynced
  · refine h.applied.trans ?_
    rw [committed, committed, hpending]
    refine filter_congr fun j hj => ?_
    rw [hother j (Nat.ne_of_lt (h.lt_of_mem_committed hj))]

end QueueState

end Bourbon
