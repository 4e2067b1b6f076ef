import Mathlib.Data.List.Flatten
import Bourbon.Db.QueueGroups
import Bourbon.Db.StoredEntries

/-!
# Group commit

Runs of the writer queue in which writing the log succeeds.

* `Numbered` : the operations of the calls have taken one sequence number after the other;
* `Filled` : the memtables hold what has been added to them, each entry once;
* `Stored` : what has been added to memtables is in a memtable, in a table file, or has been dropped
  by a compaction;
* `group_commit` : what callers of `Write` can rely on.
-/

namespace Bourbon

open List Function

theorem sequence_batchEntries {K V : Type*} [Inhabited V] {sequence : ℕ}
    {ops : List (BatchOp K V)} {e : Entry K V} (he : e ∈ batchEntries sequence ops) :
    sequence ≤ e.1.sequence ∧ e.1.sequence < sequence + ops.length := by
  induction ops generalizing sequence with
  | nil => cases he
  | cons op ops ih =>
    obtain ⟨first, hfirst, hcons⟩ := batchEntries_cons sequence op ops
    rw [hcons, mem_cons] at he
    rw [length_cons]
    rcases he with rfl | he
    · omega
    · have := ih he
      omega

namespace QueueState

variable {o : QueueOptions} {fails pushes errors : Prop} {s s' : QueueState} {i first : ℕ}

/-! ### Sequence numbers -/

theorem parts_append (s : QueueState) (sequence : ℕ) (members members' : List ℕ) :
    s.parts sequence (members ++ members') = s.parts sequence members ++
      s.parts (sequence + (members.flatMap s.ops).length) members' := by
  induction members generalizing sequence with
  | nil => rfl
  | cons j members ih =>
    rw [cons_append, parts, parts, flatMap_cons, length_append, ← Nat.add_assoc]
    split_ifs with hbatch
    · rw [ih, cons_append]
    · rw [ih, ops_eq_nil (Option.not_isSome_iff_eq_none.1 hbatch), length_nil, Nat.add_zero]

theorem parts_filter (s : QueueState) (sequence : ℕ) (members : List ℕ) :
    s.parts sequence (members.filter fun j => (s.call j).batch.isSome) =
      s.parts sequence members := by
  induction members generalizing sequence with
  | nil => rfl
  | cons j members ih =>
    rw [filter_cons, parts]
    split_ifs with hbatch
    · rw [parts, if_pos hbatch, ih]
    · exact ih _

theorem parts_congr {members : List ℕ}
    (h : ∀ j ∈ members, (s'.call j).batch.isSome = (s.call j).batch.isSome ∧ s'.ops j = s.ops j)
    (sequence : ℕ) : s'.parts sequence members = s.parts sequence members := by
  induction members generalizing sequence with
  | nil => rfl
  | cons j members ih =>
    have hj := h j mem_cons_self
    have hrest := fun k hk => h k (mem_cons_of_mem j hk)
    rw [parts, parts, hj.1, hj.2, ih hrest, ih hrest]

theorem Queue.applied_lt (h : Queue s) {j : ℕ} (hj : j ∈ s.applied.map Prod.fst) :
    j < s.pushed := by
  rw [h.applied] at hj
  exact h.lt_of_mem_committed (mem_of_mem_filter hj)

/-- The operations of calls have taken one sequence number after the other from the first one on, as
long as writing the log has not failed. -/
structure Numbered (first : ℕ) (s : QueueState) : Prop where
  applied : s.applied = s.parts first (s.applied.map Prod.fst)
  last : (∀ i, ¬ s.Inserted i) → s.db.last_sequence + 1 = first + s.added.length
  inserted : ∀ i group, (s.call i).place = .writing (.lock .ok) group →
    group.last_sequence + 1 = first + s.added.length
  locked : ∀ i status group, (s.call i).place = .writing (.lock status) group → status = .ok
  succeeded : ∀ c ∈ s.completed, c.room = .ok → c.status = .ok
  refused : ∀ c ∈ s.completed, c.room ≠ .ok → c.status = c.room

namespace Numbered

theorem added (h : Numbered first s) (hq : Queue s) :
    s.added = batchEntries first ((s.applied.map Prod.fst).flatMap s.ops) := by
  rw [hq.added]
  conv_lhs => rw [h.applied]
  exact s.flatMap_parts first _

theorem length_added (h : Numbered first s) (hq : Queue s) :
    s.added.length = ((s.applied.map Prod.fst).flatMap s.ops).length := by
  rw [h.added hq, length_batchEntries]

theorem quiet (h : Numbered first s) (hq : Queue s) (hs : Quiet o False pushes s s') :
    Numbered first s' := by
  refine ⟨?_, fun hnot => ?_, fun j group hplace => ?_,
    fun j status group hplace => h.locked j status group (hs.locked id j status group hplace), ?_,
    ?_⟩
  · rw [hs.applied, parts_congr fun j hj => ?_]
    · exact h.applied
    · obtain ⟨hsome, hops, -⟩ := hs.request j (hq.applied_lt hj)
      exact ⟨hsome, hops⟩
  · rw [hs.last_sequence, hs.added]
    refine h.last fun j hin => ?_
    obtain ⟨group, hplace⟩ := hin
    exact hnot j ⟨group, (hs.lock j group).2 hplace⟩
  · rw [hs.added]
    exact h.inserted j group ((hs.lock j group).1 hplace)
  · rw [hs.completed]
    exact h.succeeded
  · rw [hs.completed]
    exact h.refused

variable {db : DBState Bytes Bytes}

theorem of_completion (h : Numbered first s) (hq : Queue s) (hfront : s.writers.head? = some i)
    {last : ℕ} {room status : Status} {tmp_batch : WriteBatch}
    (hlast : db.last_sequence + 1 = first + s.added.length)
    (hok : room = .ok → status = .ok) (hrefused : room ≠ .ok → status = room)
    (hc : Completion { s with tmp_batch := tmp_batch, db := db } i last room status s') :
    Numbered first s' := by
  have hbatch : ∀ j, (s'.call j).batch = (s.call j).batch := hc.batch
  have hadded : s'.added = s.added := hc.added
  have happlied : s'.applied = s.applied := hc.applied
  have hcompleted : s'.completed = s.completed ++ [⟨i, upTo last s.writers, room, status⟩] :=
    hc.completed
  have hnot : ∀ j stage group, (s'.call j).place ≠ .writing stage group :=
    hc.not_writing fun j stage group hplace => hq.eq_of_writing hfront hplace
  refine ⟨?_, fun _ => ?_, fun j group hplace => absurd hplace (hnot j _ group),
    fun j status group hplace => absurd hplace (hnot j _ group), fun c hmem => ?_,
    fun c hmem => ?_⟩
  · rw [happlied, parts_congr fun j _ => ⟨congrArg Option.isSome (hbatch j), ops_congr (hbatch j)⟩]
    exact h.applied
  · rw [hc.db, hadded]
    exact hlast
  · rw [hcompleted] at hmem
    rcases mem_append.1 hmem with hmem | hmem
    · exact h.succeeded c hmem
    · obtain rfl := mem_singleton.1 hmem
      exact hok
  · rw [hcompleted] at hmem
    rcases mem_append.1 hmem with hmem | hmem
    · exact h.refused c hmem
    · obtain rfl := mem_singleton.1 hmem
      exact hrefused

theorem last_of_room (h : Numbered first s) (hq : Queue s) {allow_delay force : Bool}
    (hplace : (s.call i).place = .makingRoom allow_delay force) :
    s.db.last_sequence + 1 = first + s.added.length := by
  refine h.last fun j hin => ?_
  obtain ⟨group, hj⟩ := hin
  rw [hq.eq_of_writing (hq.front_room hplace) hj, hplace] at hj
  cases hj

theorem insertion (h : Numbered first s) (hq : Queue s) {group : Group}
    (hplace : (s.call i).place = .writing .insertInto group) (hs : Insertion s i group s') :
    Numbered first s' := by
  have hfront := hq.front_writing hplace
  have hlast : s.db.last_sequence + 1 = first + s.added.length := by
    refine h.last fun j hin => ?_
    obtain ⟨group', hj⟩ := hin
    rw [hq.eq_of_writing hfront hj, hplace] at hj
    cases hj
  have hself : (s'.call i).place = .writing (.lock .ok) group := by
    rw [hs.call, place_setPlace_self]
  have hlock : ∀ j status group', (s'.call j).place = .writing (.lock status) group' →
      status = .ok ∧ group' = group := by
    intro j status group' hj
    by_cases hji : j = i
    · rw [hji, hself] at hj
      cases hj
      exact ⟨rfl, rfl⟩
    · rw [hs.call, call_setPlace_of_ne s hji] at hj
      exact absurd (hq.eq_of_writing hfront hj) hji
  refine ⟨?_, fun hnot => absurd ⟨group, hself⟩ (hnot i), fun j group' hj => ?_,
    fun j status group' hj => (hlock j status group' hj).1, ?_, ?_⟩
  · have hlength := h.length_added hq
    have happlied := h.applied
    rw [parts_congr fun j _ => ⟨hs.same.isSome j, hs.same.ops j⟩, hs.applied, map_append,
      map_fst_parts, parts_append, parts_filter, ← hlength, ← hlast, ← happlied]
  · obtain ⟨-, rfl⟩ := hlock j _ group' hj
    rw [(hq.group i _ group' hplace).last_sequence, hs.added, length_append,
      length_batchEntries]
    omega
  · rw [hs.same.completed]
    exact h.succeeded
  · rw [hs.same.completed]
    exact h.refused

theorem move (h : Numbered first s) (hq : Queue s) (hs : Move o False pushes errors s s') :
    Numbered first s' := by
  cases hs.kind hq with
  | quiet hquiet => exact h.quiet hq hquiet
  | room hplace hc =>
    exact h.of_completion hq (hq.front_room hplace) (h.last_of_room hq hplace) id (fun _ => rfl) hc
  | insert hplace hins => exact h.insertion hq hplace hins
  | @finish i group status tmp_batch hplace hle hc =>
    obtain rfl := h.locked i status group hplace
    exact h.of_completion hq (hq.front_writing hplace) (h.inserted i group hplace) id
      (fun hne => absurd rfl hne) hc

end Numbered

/-! ### Where entries are -/

theorem parts_spec {sequence : ℕ} {members : List ℕ} {p : ℕ × List (Entry Bytes Bytes)}
    (hp : p ∈ s.parts sequence members) : ∃ n, p.2 = batchEntries n (s.ops p.1) := by
  induction members generalizing sequence with
  | nil => cases hp
  | cons j members ih =>
    rw [parts] at hp
    split_ifs at hp
    · rcases mem_cons.1 hp with rfl | hp
      · exact ⟨sequence, rfl⟩
      · exact ih hp
    · exact ih hp

/-- What has been added to memtables: where it is, and how it is numbered. -/
structure Stored (o : QueueOptions) (s : QueueState) : Prop where
  filed : Filed o.db s.dropped s.db
  part : ∀ p ∈ s.applied, ∃ sequence, p.2 = batchEntries sequence (s.ops p.1)
  found : ∀ e ∈ s.added, e ∈ s.db.entries ∨ e ∈ s.dropped
  last : (∀ i, ¬ s.Inserted i) → ∀ e ∈ s.added, e.1.sequence ≤ s.db.last_sequence
  inserted : ∀ i group, (s.call i).place = .writing (.lock .ok) group →
    ∀ e ∈ s.added, e.1.sequence ≤ group.last_sequence

namespace Stored

theorem quiet (h : Stored o s) (hq : Queue s) (hs : Quiet o fails pushes s s') : Stored o s' := by
  have hdb : Filed o.db s'.dropped s'.db ∧
      ∀ e, e ∈ s.db.entries ∨ e ∈ s.dropped → e ∈ s'.db.entries ∨ e ∈ s'.dropped := by
    cases hs.db with
    | same hdb hdropped =>
      rw [hdb, hdropped]
      exact ⟨h.filed, fun _ => id⟩
    | switch hdb hdropped =>
      obtain ⟨himm, hs'⟩ := DBState.switchMemTable_some hdb
      rw [hs', hdropped]
      refine ⟨h.filed.congr rfl rfl (Nat.le_succ _) rfl, fun e he => he.imp_left fun hin => ?_⟩
      rcases hin with hin | ⟨imm, heq, hin⟩ | hin
      · exact Or.inr (Or.inl ⟨_, rfl, hin⟩)
      · cases himm.symm.trans heq
      · exact Or.inr (Or.inr hin)
    | background haction hdb hdropped =>
      obtain ⟨hmem, -, himm, -⟩ := dbStep_background haction hdb
      obtain ⟨hfiled, hkept, hflushed⟩ := dbStep_stored h.filed haction hdb
      rw [hdropped]
      refine ⟨hfiled, fun e he => ?_⟩
      rcases he with (hin | hin | hin) | hin
      · exact Or.inl (Or.inl (hmem ▸ hin))
      · rcases himm with himm | ⟨rfl, -⟩
        · refine Or.inl (Or.inr (Or.inl ?_))
          obtain ⟨imm, heq, hin⟩ := hin
          exact ⟨imm, himm.trans heq, hin⟩
        · exact Or.inl (Or.inr (Or.inr (hflushed rfl e hin)))
      · exact (hkept e hin).imp_left fun hin => Or.inr (Or.inr hin)
      · exact Or.inr (mem_append_left _ hin)
  refine ⟨hdb.1, fun p hp => ?_, fun e he => ?_, fun hnot e he => ?_, fun j group hplace e he => ?_⟩
  · rw [hs.applied] at hp
    rw [(hs.request p.1 (hq.applied_lt (mem_map_of_mem hp))).2.1]
    exact h.part p hp
  · rw [hs.added] at he
    exact hdb.2 e (h.found e he)
  · rw [hs.added] at he
    rw [hs.last_sequence]
    refine h.last (fun j hin => ?_) e he
    obtain ⟨group, hplace⟩ := hin
    exact hnot j ⟨group, (hs.lock j group).2 hplace⟩
  · rw [hs.added] at he
    exact h.inserted j group ((hs.lock j group).1 hplace) e he

theorem last_of_front (h : Stored o s) (hq : Queue s) (hfront : s.writers.head? = some i)
    (hplace : ∀ group, (s.call i).place ≠ .writing (.lock .ok) group) :
    ∀ e ∈ s.added, e.1.sequence ≤ s.db.last_sequence := by
  refine h.last fun j hin => ?_
  obtain ⟨group, hj⟩ := hin
  rw [hq.eq_of_writing hfront hj] at hj
  exact hplace group hj

theorem of_completion (h : Stored o s) (hq : Queue s) (hfront : s.writers.head? = some i)
    {tmp_batch : WriteBatch} {last_sequence last : ℕ} {room status : Status}
    (hlast : ∀ e ∈ s.added, e.1.sequence ≤ last_sequence)
    (hs : Completion { s with
      tmp_batch := tmp_batch
      db := { s.db with last_sequence := last_sequence } } i last room status s') :
    Stored o s' := by
  have hfiled : Filed o.db s.dropped s'.db := by
    rw [hs.db]
    exact h.filed.congr rfl rfl le_rfl rfl
  refine ⟨?_, fun p hp => ?_, fun e he => ?_, fun _ e he => ?_, fun j group hplace => ?_⟩
  · rw [hs.dropped]
    exact hfiled
  · rw [hs.applied] at hp
    rw [ops_congr (hs.batch p.1)]
    exact h.part p hp
  · rw [hs.added] at he
    rw [hs.dropped, hs.db]
    exact h.found e he
  · rw [hs.added] at he
    rw [hs.db]
    exact hlast e he
  · refine absurd hplace (hs.not_writing (fun j stage group hj => ?_) j _ group)
    exact hq.eq_of_writing hfront hj

theorem insertion (h : Stored o s) (hq : Queue s) {group : Group}
    (hplace : (s.call i).place = .writing .insertInto group) (hs : Insertion s i group s') :
    Stored o s' := by
  have hfront := hq.front_writing hplace
  have hlast := h.last_of_front hq hfront fun group' heq => by
    rw [hplace] at heq
    cases heq
  have hself : (s'.call i).place = .writing (.lock .ok) group := by
    rw [hs.call, place_setPlace_self]
  have hfiled : Filed o.db s.dropped s'.db := by
    rw [hs.db]
    exact h.filed.congr rfl rfl le_rfl rfl
  refine ⟨?_, fun p hp => ?_, fun e he => ?_, fun hnot => absurd ⟨group, hself⟩ (hnot i),
    fun j group' hj e he => ?_⟩
  · rw [hs.dropped]
    exact hfiled
  · rw [hs.applied, mem_append] at hp
    rw [hs.same.ops]
    rcases hp with hp | hp
    · exact h.part p hp
    · exact parts_spec hp
  · rw [hs.added, mem_append] at he
    rw [hs.dropped, hs.db]
    rcases he with he | he
    · refine (h.found e he).imp_left fun hin => ?_
      rcases hin with hin | hin
      · exact Or.inl (mem_foldl_memTableAdd.2 (Or.inr hin))
      · exact Or.inr hin
    · exact Or.inl (Or.inl (mem_foldl_memTableAdd.2 (Or.inl he)))
  · have hgroup : group' = group := by
      by_cases hji : j = i
      · rw [hji, hself] at hj
        cases hj
        rfl
      · rw [hs.call, call_setPlace_of_ne s hji] at hj
        exact absurd (hq.eq_of_writing hfront hj) hji
    rw [hgroup, (hq.group i _ group hplace).last_sequence]
    rw [hs.added, mem_append] at he
    rcases he with he | he
    · exact (hlast e he).trans (Nat.le_add_right _ _)
    · have := sequence_batchEntries he
      omega

theorem move (h : Stored o s) (hq : Queue s) (hs : Move o fails pushes errors s s') :
    Stored o s' := by
  cases hs.kind hq with
  | quiet hquiet => exact h.quiet hq hquiet
  | room hplace hc =>
    refine h.of_completion hq (hq.front_room hplace)
      (h.last_of_front hq (hq.front_room hplace) fun group heq => ?_) hc
    exact Place.noConfusion (hplace.symm.trans heq)
  | insert hplace hins => exact h.insertion hq hplace hins
  | @finish i group status tmp_batch hplace hle hc =>
    have hfront := hq.front_writing hplace
    refine h.of_completion hq hfront (fun e he => ?_) hc
    by_cases hstatus : status = .ok
    · exact h.inserted i group (hstatus ▸ hplace) e he
    · refine (h.last_of_front hq hfront (fun group' heq => ?_) e he).trans hle
      rw [hplace] at heq
      cases heq
      exact hstatus rfl

end Stored

theorem stored_init {db : DBState Bytes Bytes}
    (hnumber : ∀ level, ∀ f ∈ db.current level, f.number < db.next_file_number)
    (hidle : db.compact = none) : Stored o (init db) where
  filed := ⟨hnumber, fun st hst => absurd (hidle.symm.trans hst) (Option.some_ne_none st).symm⟩
  part _ hp := absurd hp not_mem_nil
  found _ he := absurd he not_mem_nil
  last _ _ he := absurd he not_mem_nil
  inserted _ _ _ _ he := absurd he not_mem_nil

/-- What the memtables of `db` held and what has been added since, in this order: the first part has
been flushed, the immutable memtable holds the second one, and the memtable the last one. -/
def Filled (db : DBState Bytes Bytes) (s : QueueState) : Prop :=
  ∃ flushed older recent, db.imm.getD [] ++ db.mem ++ s.added = flushed ++ older ++ recent ∧
    (s.db.imm.getD []).Perm older ∧ s.db.mem.Perm recent

variable {db : DBState Bytes Bytes}

theorem Filled.congr (h : Filled db s) (hadded : s'.added = s.added) (hmem : s'.db.mem = s.db.mem)
    (himm : s'.db.imm = s.db.imm) : Filled db s' := by
  unfold Filled
  rw [hadded, hmem, himm]
  exact h

theorem Filled.move (h : Filled db s) (hq : Queue s) (hs : Move o fails pushes errors s s') :
    Filled db s' := by
  cases hs.kind hq with
  | quiet hquiet =>
    cases hquiet.db with
    | same hdb hdropped => exact h.congr hquiet.added (by rw [hdb]) (by rw [hdb])
    | switch hdb hdropped =>
      obtain ⟨flushed, older, recent, hall, himm, hmem⟩ := h
      obtain ⟨hnone, hs'⟩ := DBState.switchMemTable_some hdb
      rw [hnone, Option.getD_none, nil_perm] at himm
      refine ⟨flushed, recent, [], ?_, ?_, ?_⟩
      · rw [hquiet.added, hall, himm, append_nil, append_nil]
      · rw [hs']
        exact hmem
      · rw [hs']
    | background haction hdb hdropped =>
      obtain ⟨hmem', -, himm', -⟩ := dbStep_background haction hdb
      rcases himm' with himm' | ⟨-, hnone⟩
      · exact h.congr hquiet.added hmem' himm'
      · obtain ⟨flushed, older, recent, hall, -, hmem⟩ := h
        refine ⟨flushed ++ older, [], recent, ?_, ?_, ?_⟩
        · rw [hquiet.added, hall, append_nil]
        · rw [hnone, Option.getD_none]
        · rw [hmem']
          exact hmem
  | room hplace hc => exact h.congr hc.added (by rw [hc.db]) (by rw [hc.db])
  | @insert i group hplace hins =>
    obtain ⟨flushed, older, recent, hall, himm, hmem⟩ := h
    have hadded := hins.added
    have hdb := hins.db
    generalize batchEntries (s.db.last_sequence + 1) ((s.members group).flatMap s.ops) = entries
      at hadded hdb
    refine ⟨flushed, older, recent ++ entries, ?_, ?_, ?_⟩
    · rw [hadded, ← append_assoc, hall, append_assoc]
    · rw [hdb]
      exact himm
    · rw [hdb]
      exact (foldl_memTableAdd_perm entries _).trans (hmem.append_right entries)
  | finish hplace hle hc => exact h.congr hc.added (by rw [hc.db]) (by rw [hc.db])

/-! ### Callers -/

theorem requests_of_moves (hq : Queue s) (hs : Moves o fails False errors s s') :
    s'.pushed = s.pushed ∧
      ∀ j < s.pushed, s'.ops j = s.ops j ∧ (s'.call j).sync = (s.call j).sync := by
  induction hs with
  | refl => exact ⟨rfl, fun _ _ => ⟨rfl, rfl⟩⟩
  | @tail t t' hmoves hmove ih =>
    obtain ⟨hpushed, hcalls⟩ := ih
    suffices h : t'.pushed = t.pushed ∧
        ∀ j < t.pushed, t'.ops j = t.ops j ∧ (t'.call j).sync = (t.call j).sync by
      refine ⟨h.1.trans hpushed, fun j hj => ?_⟩
      obtain ⟨hops, hsync⟩ := h.2 j (hpushed ▸ hj)
      exact ⟨hops.trans (hcalls j hj).1, hsync.trans (hcalls j hj).2⟩
    cases hmove.kind (hq.moves hmoves) with
    | quiet hquiet => exact ⟨hquiet.not_pushed id, fun j hj => (hquiet.request j hj).2⟩
    | room hplace hc => exact ⟨hc.pushed, fun j _ => ⟨ops_congr (hc.batch j), hc.sync j⟩⟩
    | insert hplace hins =>
      exact ⟨hins.same.pushed, fun j _ => ⟨hins.same.ops j, hins.same.sync j⟩⟩
    | finish hplace hle hc => exact ⟨hc.pushed, fun j _ => ⟨ops_congr (hc.batch j), hc.sync j⟩⟩

theorem requests_step (hq : Queue s) {a : QueueAction} (hs : queueStep o s a = some s') :
    (List.range s'.pushed).map (fun j => (s'.ops j, (s'.call j).sync)) =
      (List.range s.pushed).map (fun j => (s.ops j, (s.call j).sync)) ++ a.request.toList := by
  -- what comes behind a push is not a push
  have hpush : ∀ {batch : Option ReadableBatch} {sync : Bool},
      Moves o True False True (s.pushCall batch sync) s' →
      (List.range s'.pushed).map (fun j => (s'.ops j, (s'.call j).sync)) =
        (List.range s.pushed).map (fun j => (s.ops j, (s.call j).sync)) ++
          [((batch.map ReadableBatch.ops).getD [], sync)] := by
    intro batch sync hmoves
    obtain ⟨hpushed, hcalls⟩ := requests_of_moves (hq.pushCall batch sync) hmoves
    have hnew : (s.pushCall batch sync).call s.pushed = ⟨batch, sync, false, .ok, .queued⟩ :=
      update_self _ _ _
    have hold : ∀ j ∈ List.range s.pushed, (s.pushCall batch sync).call j = s.call j :=
      fun j hj => update_of_ne (Nat.ne_of_lt (mem_range.1 hj)) _ _
    rw [hpushed]
    change (List.range (s.pushed + 1)).map _ = _
    rw [range_succ, map_append]
    congr 1
    · refine map_congr_left fun j hj => ?_
      obtain ⟨hops, hsync⟩ := hcalls j (Nat.lt_succ_of_lt (mem_range.1 hj))
      rw [hops, hsync, ops_congr (congrArg Call.batch (hold j hj)), hold j hj]
    · obtain ⟨hops, hsync⟩ := hcalls s.pushed (Nat.lt_succ_self _)
      rw [map_singleton, hops, hsync, ops, hnew]
  have hstay : a.request = none →
      (List.range s'.pushed).map (fun j => (s'.ops j, (s'.call j).sync)) =
        (List.range s.pushed).map (fun j => (s.ops j, (s.call j).sync)) ++ a.request.toList := by
    intro hnone
    obtain ⟨hpushed, hcalls⟩ := requests_of_moves hq
      (queueStep_moves (fun _ => trivial) (fun hsome => by rw [hnone] at hsome; cases hsome)
        (fun _ => trivial) hs)
    rw [hnone, hpushed, Option.toList_none, append_nil]
    refine map_congr_left fun j hj => ?_
    obtain ⟨hops, hsync⟩ := hcalls j (mem_range.1 hj)
    rw [hops, hsync]
  cases a with
  | write batch sync room => exact hpush (push_moves (fun _ => trivial) hs)
  | compactMemTable room => exact hpush (push_moves (fun _ => trivial) hs)
  | _ => exact hstay rfl

variable {as : List QueueAction}

/-- **The calls of a run**, in the order in which they were pushed. -/
theorem requests_run (hq : Queue s)
    (hrun : Steps.run (queueStep o) s as = some s') :
    (List.range s'.pushed).map (fun j => (s'.ops j, (s'.call j).sync)) =
      (List.range s.pushed).map (fun j => (s.ops j, (s.call j).sync)) ++
        as.filterMap QueueAction.request := by
  induction as generalizing s with
  | nil =>
    cases hrun
    exact (append_nil _).symm
  | cons a as ih =>
    obtain ⟨t, ht, hrun⟩ := Option.bind_eq_some_iff.1 hrun
    have hmoves : Moves o True True True s t :=
      queueStep_moves (fun _ => trivial) (fun _ => trivial) (fun _ => trivial) ht
    rw [ih (hq.moves hmoves) hrun, requests_step hq ht, append_assoc]
    cases ha : a.request with
    | none => rw [filterMap_cons_none ha, Option.toList_none, nil_append]
    | some request => rw [filterMap_cons_some ha, Option.toList_some, singleton_append]

/-! ### Runs in which writing the log succeeds -/

theorem numbered_init (db : DBState Bytes Bytes) : Numbered (db.last_sequence + 1) (init db) :=
  ⟨rfl, fun _ => rfl, fun _ _ hplace => Place.noConfusion hplace,
    fun _ _ _ hplace => Place.noConfusion hplace, fun _ hc => absurd hc not_mem_nil,
    fun _ hc => absurd hc not_mem_nil⟩

/-- What holds in every run from a database without a running compaction. -/
structure Tracked (o : QueueOptions) (s : QueueState) : Prop where
  queue : Queue s
  stored : Stored o s

theorem Tracked.init
    (hnumber : ∀ level, ∀ f ∈ db.current level, f.number < db.next_file_number)
    (hidle : db.compact = none) : Tracked o (init db) :=
  ⟨queue_init db, stored_init hnumber hidle⟩

theorem Tracked.move (h : Tracked o s) (hs : Move o fails pushes errors s s') : Tracked o s' :=
  ⟨h.queue.move hs, h.stored.move h.queue hs⟩

theorem Tracked.moves (h : Tracked o s) (hs : Moves o fails pushes errors s s') : Tracked o s' := by
  induction hs with
  | refl => exact h
  | tail _ hmove ih => exact ih.move hmove

theorem moves_of_step {a : QueueAction} (hs : queueStep o s a = some s') :
    Moves o True True True s s' :=
  queueStep_moves (fun _ => trivial) (fun _ => trivial) (fun _ => trivial) hs

theorem Tracked.run (h : Tracked o s)
    (hrun : Steps.run (queueStep o) s as = some s') : Tracked o s' := by
  have hstep : ∀ s a s', Tracked o s → True → queueStep o s a = some s' → Tracked o s' :=
    fun s a s' h _ hs => h.moves (moves_of_step hs)
  exact Steps.invariant hstep h (Steps.meets_true _ _) hrun

/-- What holds in all runs from a database in which writing the log succeeds. -/
structure Logged (db : DBState Bytes Bytes) (s : QueueState) : Prop where
  queue : Queue s
  numbered : Numbered (db.last_sequence + 1) s
  filled : Filled db s

theorem Logged.init (db : DBState Bytes Bytes) : Logged db (init db) :=
  ⟨queue_init db, numbered_init db, [], _, _, append_nil _, Perm.refl _, Perm.refl _⟩

theorem Logged.moves (h : Logged db s)
    (hs : Moves o False pushes errors s s') : Logged db s' := by
  induction hs with
  | refl => exact h
  | tail _ hmove ih =>
    exact ⟨ih.queue.move hmove, ih.numbered.move ih.queue hmove, ih.filled.move ih.queue hmove⟩

theorem Logged.run
    (hlog : ∀ a ∈ as, ¬ a.LogFails)
    (hrun : Steps.run (queueStep o) (QueueState.init db) as = some s) : Logged db s := by
  have hstep : ∀ s a s', Logged db s → ¬ a.LogFails → queueStep o s a = some s' → Logged db s' :=
    fun s a s' h hlog hs => h.moves (queueStep_moves hlog (fun _ => trivial) (fun _ => trivial) hs)
  exact Steps.invariant hstep (Logged.init db) (Steps.meets_of_forall hlog _) hrun

theorem Queue.committed_sublist (h : Queue s) : s.committed.Sublist (List.range s.pushed) := by
  rw [← h.order]
  refine List.Sublist.append (filter_sublist.flatMap _) ?_
  generalize hw : s.writers = writers
  unfold pending
  split
  · exact nil_sublist _
  · split
    · rename_i group hplace
      obtain ⟨rest, hrest⟩ := exists_upTo (h.group _ _ group hplace).last
      rw [← hw, hrest]
      exact sublist_append_left _ _
    · exact nil_sublist _

variable {result : Status}

theorem Queue.status_of_applied (h : Queue s)
    (hplace : (s.call i).place = .returned result) (hi : i ∈ s.applied.map Prod.fst) :
    result = .ok := by
  rw [h.applied] at hi
  obtain ⟨hi, hbatch⟩ := mem_filter.1 hi
  rcases mem_append.1 hi with hi | hi
  · obtain ⟨c, hc, hi⟩ := mem_flatMap.1 hi
    obtain ⟨hc, hstatus⟩ := mem_filter.1 hc
    have hleft := h.left c hc i hi
    rw [Call.Left, hplace] at hleft
    exact (hleft hbatch).trans (of_decide_eq_true hstatus)
  · have hin := h.inside i (h.mem_of_mem_pending hi)
    rw [hplace] at hin
    exact hin.elim

/-- **Group commit.**  The operations of all calls whose batches have been applied have been put
into memtables once, call after call in the order of the queue, with consecutive sequence numbers;
those that are in no memtable any more are in table files, unless a compaction has dropped them.  A
call of `Write` returns the status of the group that it was part of, and unless `MakeRoomForWrite`
has refused to write that group, its batch has been applied.  Who syncs has been part of a group
that was synced. -/
theorem group_commit (o : QueueOptions) (db : DBState Bytes Bytes) (as : List QueueAction)
    (s : QueueState) (hlog : ∀ a ∈ as, ¬ a.LogFails)
    (hrun : Steps.run (queueStep o) (init db) as = some s) :
    (List.range s.pushed).map (fun i => (s.ops i, (s.call i).sync)) =
        as.filterMap QueueAction.request ∧
    s.added = batchEntries (db.last_sequence + 1) ((s.applied.map Prod.fst).flatMap s.ops) ∧
    Filled db s ∧
    ((∀ level, ∀ f ∈ db.current level, f.number < db.next_file_number) → db.compact = none →
      ∀ e ∈ s.added, e ∈ s.db.entries ∨ e ∈ s.dropped) ∧
    (s.applied.map Prod.fst).Pairwise (· < ·) ∧
    (∀ i result, (s.call i).batch.isSome → (s.call i).place = .returned result →
      ∃ c ∈ s.completed, i ∈ c.members ∧ result = c.status ∧
        (c.room = .ok → result = .ok ∧ i ∈ s.applied.map Prod.fst) ∧
        (c.room ≠ .ok → result = c.room ∧ i ∉ s.applied.map Prod.fst)) ∧
    ∀ c ∈ s.completed, ∀ i ∈ c.members, (s.call i).sync = true → (s.call c.leader).sync = true := by
  obtain ⟨hq, hnumbered, hfilled⟩ := Logged.run hlog hrun
  have hrequests := requests_run (queue_init db) hrun
  refine ⟨hrequests, hnumbered.added hq, hfilled, fun hnumber hidle => ?_, ?_,
    fun i result hbatch hplace => ?_, hq.synced⟩
  · exact ((Tracked.init hnumber hidle).run hrun).stored.found
  · rw [hq.applied]
    exact (pairwise_lt_range.sublist hq.committed_sublist).filter _
  · obtain ⟨c, hc, hi⟩ := hq.completed_of_place hplace id
    have hstatus : result = c.status := by
      have hleft := hq.left c hc i hi
      rw [Call.Left, hplace] at hleft
      exact hleft hbatch
    refine ⟨c, hc, hi, hstatus, fun hroom => ?_, fun hroom => ?_⟩
    · have hok := hnumbered.succeeded c hc hroom
      refine ⟨hstatus.trans hok, ?_⟩
      rw [hq.applied]
      refine mem_filter.2 ⟨mem_append_left _ (mem_flatMap.2 ⟨c, ?_, hi⟩), hbatch⟩
      exact mem_filter.2 ⟨hc, decide_eq_true hok⟩
    · have hrefused := hnumbered.refused c hc hroom
      refine ⟨hstatus.trans hrefused, fun happlied => hroom ?_⟩
      rw [← hrefused, ← hstatus]
      exact hq.status_of_applied hplace happlied

namespace GroupCommitRun

/-- Tables of size 1. -/
def options : QueueOptions := ⟨0, 4194304, ⟨2097152, fun _ => 0, fun _ => 1⟩⟩

/-- There is room in the memtable. -/
def room : RoomInput := ⟨0, 0, .ok⟩

/-- `Put` of a key with an empty value. -/
def batch (key : UInt8) : ReadableBatch :=
  ReadableBatch.new.put [key] [] (show 1 < 2 ^ 32 by decide) (by decide) (by decide)

/-- While the first call is writing three others come.  The second one does not write for the third,
which syncs, and the third one writes for the fourth. -/
def run : List QueueAction :=
  [.write (batch 97) false room, .write (batch 98) false room, .write (batch 99) true room,
    .addRecord 0 .ok, .write (batch 100) false room, .insertInto 0, .lock 0, .awake 1 room,
    .addRecord 1 .ok, .insertInto 1, .lock 1, .awake 2 room, .addRecord 2 .ok, .sync 2 .ok,
    .insertInto 2, .lock 2, .awake 3 room]

end GroupCommitRun

open GroupCommitRun in
theorem group_commit_four :
    ∃ s, Steps.run (queueStep options) (init DBState.init) GroupCommitRun.run = some s ∧
      s.completed.map Completed.members = [[0], [1], [2, 3]] ∧
      s.applied.map Prod.fst = [0, 1, 2, 3] ∧
      s.added = batchEntries 1 ([0, 1, 2, 3].flatMap s.ops) ∧
      s.db.mem = ([97, 98, 99, 100].mapIdx fun i key => (⟨[key], i + 1, .value⟩, [])) ∧
      (∀ e ∈ s.added, e ∈ s.db.entries ∨ e ∈ s.dropped) ∧
      (s.call 3).place = .returned .ok ∧ ∃ c ∈ s.completed, 3 ∈ c.members ∧ c.status = .ok := by
  have hrun : (Steps.run (queueStep options) (init DBState.init) GroupCommitRun.run).map
      (fun s => (s.completed.map Completed.members, s.applied.map Prod.fst,
        (s.call 3).batch.isSome, (s.call 3).place)) =
          some ([[0], [1], [2, 3]], [0, 1, 2, 3], true, .returned .ok) := by
    decide +kernel
  have hmem : (Steps.run (queueStep options) (init DBState.init) GroupCommitRun.run).map
      (fun s => s.db.mem) =
        some ([97, 98, 99, 100].mapIdx fun i key => (⟨[key], i + 1, .value⟩, [])) := by
    decide +kernel
  obtain ⟨s, hs, heq⟩ := Option.map_eq_some_iff.1 hrun
  obtain ⟨hcompleted, heq⟩ := Prod.mk.inj heq
  obtain ⟨happlied, heq⟩ := Prod.mk.inj heq
  obtain ⟨hbatch, hplace⟩ := Prod.mk.inj heq
  obtain ⟨-, hadded, -, hfound, -, hreturned, -⟩ :=
    group_commit options DBState.init GroupCommitRun.run s (by decide +kernel) hs
  obtain ⟨c, hc, hi, hstatus, -⟩ := hreturned 3 .ok hbatch hplace
  rw [hs] at hmem
  exact ⟨s, hs, hcompleted, happlied, happlied ▸ hadded, Option.some.inj hmem,
    hfound (fun _ f hf => absurd hf not_mem_nil) rfl, hplace, c, hc, hi, hstatus.symm⟩

end QueueState

end Bourbon
