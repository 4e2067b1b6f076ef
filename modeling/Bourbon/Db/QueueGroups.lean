import Bourbon.Db.LevelOrder
import Bourbon.Db.QueueInvariant

/-!
# Building and inserting a group

* `buildLoop_spec` : `BuildBatchGroup` gathers the operations of a front part of the queue, in the
  batch of the first writer while that is the only one, and in the temporary batch from then on;
* `Queue.started`, `Queue.inserted` : the invariant of the queue is kept;
* `Queue.move` : so do all moves.
-/

namespace Bourbon

open List Function

namespace QueueState

variable {o : QueueOptions} {fails pushes errors : Prop} {s s' : QueueState} {i : ℕ}

/-! ### The start of a group -/

/-- The batches of some writers have been gathered in the temporary batch, if it is in use. -/
structure Gathered (s : QueueState) (first : List (BatchOp Bytes Bytes)) (first_sync : Bool)
    (members : List ℕ) (result : Option WriteBatch) (last : ℕ) : Prop where
  last : members.getLast? = some last
  sync : ∀ j ∈ members, (s.call j).sync = true → first_sync = true
  own : result = none → members.flatMap s.ops = first
  joined : ∀ r, result = some r → r.iterate = (.ok, members.flatMap s.ops)

variable {j : ℕ}

theorem ops_eq {b : ReadableBatch} (h : (s.call j).batch = some b) : s.ops j = b.ops := by
  unfold ops
  rw [h]
  rfl

theorem ops_eq_nil (h : (s.call j).batch = none) : s.ops j = [] := by
  unfold ops
  rw [h]
  rfl

theorem flatMap_ops_snoc (s : QueueState) (members : List ℕ) (j : ℕ) :
    (members ++ [j]).flatMap s.ops = members.flatMap s.ops ++ s.ops j := by
  rw [flatMap_append, flatMap_cons, flatMap_nil, append_nil]

variable {last : ℕ}

/-- **`BuildBatchGroup` gathers the batches of a part of the queue.** -/
theorem buildLoop_spec (s : QueueState) {first : WriteBatch}
    {first_ops : List (BatchOp Bytes Bytes)} (hfirst : first.iterate = (.ok, first_ops))
    {first_sync : Bool} {max_size : ℕ} (hmax : max_size < 2 ^ 31) (rest : List ℕ)
    {members : List ℕ} {size : ℕ} {result : Option WriteBatch}
    (h : Gathered s first_ops first_sync members result last)
    (hsize : (members.flatMap s.ops).length ≤ size) :
    ∃ result' last' members' behind,
      buildLoop s.call .new first first_sync max_size rest size result last =
        some (result', last') ∧
      members ++ rest = members' ++ behind ∧
      Gathered s first_ops first_sync members' result' last' := by
  induction rest generalizing members size result last with
  | nil => exact ⟨result, last, members, [], rfl, rfl, h⟩
  | cons w rest ih =>
    rw [buildLoop]
    by_cases hstop : (s.call w).sync = true ∧ first_sync = false
    · rw [if_pos hstop]
      exact ⟨result, last, members, w :: rest, rfl, rfl, h⟩
    · rw [if_neg hstop]
      have hsync : ∀ j ∈ members ++ [w], (s.call j).sync = true → first_sync = true := by
        intro j hj hj'
        rcases mem_append.1 hj with hj | hj
        · exact h.sync j hj hj'
        · rw [mem_singleton.1 hj] at hj'
          by_contra hno
          exact hstop ⟨hj', Bool.eq_false_iff.2 hno⟩
      have hlast : (members ++ [w]).getLast? = some w := List.getLast?_concat
      cases hbatch : (s.call w).batch with
      | none =>
        have hops : (members ++ [w]).flatMap s.ops = members.flatMap s.ops := by
          rw [flatMap_ops_snoc, ops_eq_nil hbatch, append_nil]
        obtain ⟨result', last', members', behind, hloop, hsplit, hgathered⟩ :=
          ih (⟨hlast, hsync, by rw [hops]; exact h.own, by rw [hops]; exact h.joined⟩ :
            Gathered s first_ops first_sync (members ++ [w]) result w)
            (show ((members ++ [w]).flatMap s.ops).length ≤ size from hops ▸ hsize)
        refine ⟨result', last', members', behind, hloop, ?_, hgathered⟩
        rw [← hsplit, append_assoc]
        rfl
      | some b =>
        dsimp only
        by_cases hfull : max_size < size + b.byteSize
        · rw [if_pos hfull]
          exact ⟨result, last, members, w :: rest, rfl, rfl, h⟩
        · rw [if_neg hfull]
          have hops : (members ++ [w]).flatMap s.ops = members.flatMap s.ops ++ b.ops := by
            rw [flatMap_ops_snoc, ops_eq hbatch]
          have hlength : b.ops.length ≤ b.byteSize :=
            (Nat.le_add_right _ _).trans b.toWriteBatch.length_iterate_le
          have hcount : (members.flatMap s.ops).length + b.ops.length < 2 ^ 31 := by omega
          have hgo : ∀ r : WriteBatch, r.iterate = (.ok, members.flatMap s.ops ++ b.ops) →
              ∃ result' last' members' behind,
                buildLoop s.call .new first first_sync max_size rest (size + b.byteSize)
                  (some r) w = some (result', last') ∧
                members ++ w :: rest = members' ++ behind ∧
                Gathered s first_ops first_sync members' result' last' := by
            intro r hr
            obtain ⟨result', last', members', behind, hloop, hsplit, hgathered⟩ :=
              ih (⟨hlast, hsync, fun hnone => absurd hnone (Option.some_ne_none r),
                fun r' hr' => by cases hr'; rw [hops]; exact hr⟩ :
                Gathered s first_ops first_sync (members ++ [w]) (some r) w)
                (show ((members ++ [w]).flatMap s.ops).length ≤ size + b.byteSize by
                  rw [hops, length_append]
                  omega)
            refine ⟨result', last', members', behind, hloop, ?_, hgathered⟩
            rw [← hsplit, append_assoc]
            rfl
          -- either way the temporary batch holds all operations now
          cases hresult : result with
          | some r =>
            exact hgo _ (WriteBatch.iterate_append (h.joined r hresult) b.iterate_eq hcount)
          | none =>
            have hown := h.own hresult
            rw [hown] at hcount hgo
            rw [if_neg (not_not.2 WriteBatch.count_new)]
            refine hgo _ (WriteBatch.iterate_append
              (WriteBatch.iterate_append WriteBatch.iterate_new hfirst ?_) b.iterate_eq hcount)
            rw [length_nil]
            omega

/-- What `startGroup` does. -/
structure Started (s : QueueState) (i : ℕ) (stage : Stage) (group : Group) (s' : QueueState) :
    Prop where
  same : SameQueue s s'
  place : (s'.call i).place = .writing stage group
  stage : stage = .addRecord ∨ stage = .insertInto
  other : ∀ j, j ≠ i → s'.call j = s.call j
  db : s'.db = s.db
  bg_error : s'.bg_error = s.bg_error
  dropped : s'.dropped = s.dropped
  applied : s'.applied = s.applied
  added : s'.added = s.added
  tmp : group.own = true → s'.tmp_batch = s.tmp_batch
  ok : GroupOk s' i group

theorem sequenceAfter_eq {b : WriteBatch} {ops : List (BatchOp Bytes Bytes)}
    (hb : b.iterate = (.ok, ops)) (hlimit : last + b.count ≤ kMaxSequenceNumber) :
    sequenceAfter last b = last + ops.length ∧ last + 1 < 2 ^ 64 := by
  have hcount := (WriteBatch.iterate_eq_ok.1 hb).2
  have hmax : (kMaxSequenceNumber : ℤ) < 2 ^ 63 := by decide
  rw [sequenceAfter, hcount]
  rw [hcount] at hlimit
  omega

theorem maxGroupSize_lt (size : ℕ) : maxGroupSize size < 2 ^ 31 := by
  unfold maxGroupSize
  split_ifs <;> omega

variable {allow_delay force : Bool}

theorem startGroup_spec (h : Queue s)
    (hplace : (s.call i).place = .makingRoom allow_delay force)
    (hs : s.startGroup o i = some s') : ∃ stage group, Started s i stage group s' := by
  have hfront := h.front_room hplace
  have htmp : s.tmp_batch = .new := h.tmp fun j stage group hwriting => by
    rw [h.eq_of_writing hfront hwriting, hplace] at hwriting
    cases hwriting
  obtain ⟨rest, hwriters⟩ : ∃ rest, s.writers = i :: rest := by
    cases hw : s.writers with
    | nil =>
      rw [hw] at hfront
      cases hfront
    | cons j rest =>
      rw [hw] at hfront
      cases hfront
      exact ⟨rest, rfl⟩
  have hnodup := (nodup_append.1 h.nodup).2.1
  unfold startGroup buildBatchGroup at hs
  generalize hstage : (if o.mod < 7 then Stage.addRecord else Stage.insertInto) = stage at hs
  have hstage' : stage = .addRecord ∨ stage = .insertInto := by
    rw [← hstage]
    split_ifs
    · exact Or.inl rfl
    · exact Or.inr rfl
  cases hbatch : (s.call i).batch with
  | none =>
    simp only [hwriters, hbatch] at hs
    cases hs
  | some b =>
    have hgathered : Gathered s b.ops (s.call i).sync [i] none i := by
      refine ⟨rfl, fun j hj hsync => ?_, fun _ => ?_, fun r hr =>
        absurd hr.symm (Option.some_ne_none r)⟩
      · rwa [mem_singleton.1 hj] at hsync
      · rw [flatMap_cons, flatMap_nil, append_nil, ops_eq hbatch]
    obtain ⟨result, last, members', behind, hloop, hsplit, hmembers⟩ :=
      buildLoop_spec s b.iterate_eq (maxGroupSize_lt b.byteSize) rest hgathered
        (show ([i].flatMap s.ops).length ≤ b.byteSize by
          rw [hgathered.own rfl]
          exact (Nat.le_add_right _ _).trans b.toWriteBatch.length_iterate_le)
    have hsplit : s.writers = members' ++ behind := by
      rw [hwriters]
      exact hsplit
    obtain ⟨init, hinit⟩ := List.getLast?_eq_some_iff.1 hmembers.last
    have hupTo : upTo last s.writers = members' := by
      rw [hsplit, hinit, append_assoc, singleton_append]
      rw [hsplit, hinit, append_assoc, singleton_append] at hnodup
      refine upTo_eq fun hmem => ?_
      exact disjoint_of_nodup_append hnodup hmem mem_cons_self
    have hlast : last ∈ s.writers := by
      rw [hsplit, hinit]
      exact mem_append_left _ (mem_append_right _ mem_cons_self)
    -- the invariant of the group, whichever batch it is in
    have hok : ∀ {t : QueueState} {own : Bool} {updates : WriteBatch}, SameQueue s t →
        t.updates i ⟨own, last, sequenceAfter s.db.last_sequence updates⟩ = some updates →
        updates.iterate = (.ok, members'.flatMap s.ops) →
        updates.sequence = s.db.last_sequence + 1 →
        s.db.last_sequence + updates.count ≤ kMaxSequenceNumber →
        GroupOk t i ⟨own, last, sequenceAfter s.db.last_sequence updates⟩ := by
      intro t own updates hsame hupdates hiterate hsequence hlimit
      have hmem : t.members ⟨own, last, sequenceAfter s.db.last_sequence updates⟩ = members' := by
        rw [members, hsame.writers, hupTo]
      have hflat : members'.flatMap t.ops = members'.flatMap s.ops :=
        flatMap_congr fun j _ => hsame.ops j
      refine ⟨by rw [hsame.writers]; exact hlast, ⟨updates, hupdates, ?_, ?_⟩, ?_, ?_⟩
      · rw [hmem, hflat]
        exact hiterate
      · rw [hsame.last_sequence]
        exact hsequence
      · rw [hmem, hflat, hsame.last_sequence]
        exact (sequenceAfter_eq hiterate hlimit).1
      · intro j hj hsync
        rw [hmem] at hj
        rw [hsame.sync] at hsync ⊢
        exact hmembers.sync j hj hsync
    simp only [hwriters, hbatch, htmp, hloop] at hs
    cases hresult : result with
    | none =>
      simp only [hresult] at hs
      split_ifs at hs with hlimit
      rw [Option.some.injEq] at hs
      have hiterate : (b.setSequence (s.db.last_sequence + 1)).iterate =
          (.ok, members'.flatMap s.ops) := by
        rw [ReadableBatch.iterate_eq, ReadableBatch.ops_setSequence, hmembers.own hresult]
      have hself : s'.call i = { s.call i with
          batch := some (b.setSequence (s.db.last_sequence + 1))
          place := .writing stage ⟨true, last, sequenceAfter s.db.last_sequence
            (b.setSequence (s.db.last_sequence + 1)).toWriteBatch⟩ } := by
        rw [← hs]
        exact update_self _ _ _
      have hother : ∀ j, j ≠ i → s'.call j = s.call j := fun j hj => by
        rw [← hs]
        exact update_of_ne hj _ _
      have hsame : SameQueue s s' := by
        refine ⟨by rw [← hs, hwriters], by rw [← hs], by rw [← hs], by rw [← hs], fun j => ?_,
          fun j => ?_, fun j => ?_, fun j => ?_⟩ <;> by_cases hj : j = i
        · rw [hj, ops_eq hbatch, ops_eq (congrArg Call.batch hself),
            ReadableBatch.ops_setSequence]
        · exact ops_congr (congrArg Call.batch (hother j hj))
        · rw [hj, hself, hbatch]
          rfl
        · rw [hother j hj]
        · rw [hj, hself]
        · rw [hother j hj]
        · rw [hj, hself]
        · rw [hother j hj]
      refine ⟨stage, _, hsame, by rw [hself], hstage', hother, by rw [← hs], by rw [← hs],
        by rw [← hs], by rw [← hs], by rw [← hs], fun _ => by rw [← hs, htmp],
        hok hsame ?_ hiterate ?_ hlimit⟩
      · rw [QueueState.updates, if_pos rfl, hself]
        rfl
      · exact WriteBatch.sequence_setSequence _ (sequenceAfter_eq hiterate hlimit).2
    | some r =>
      simp only [hresult] at hs
      split_ifs at hs with hlimit
      rw [Option.some.injEq] at hs
      have hiterate : (r.setSequence (s.db.last_sequence + 1)).iterate =
          (.ok, members'.flatMap s.ops) := by
        rw [WriteBatch.iterate_setSequence]
        exact hmembers.joined r hresult
      have hother : ∀ j, j ≠ i → s'.call j = s.call j := fun j hj => by
        rw [← hs]
        exact call_setPlace_of_ne s hj _
      have hsame : SameQueue s s' := by
        rw [← hs]
        exact ⟨rfl, rfl, rfl, rfl, fun j => ops_congr (batch_setPlace s i j _),
          fun j => congrArg Option.isSome (batch_setPlace s i j _), fun j => sync_setPlace s i j _,
          fun j => done_setPlace s i j _⟩
      refine ⟨stage, ⟨false, last, sequenceAfter s.db.last_sequence
        (r.setSequence (s.db.last_sequence + 1))⟩, hsame, ?_, hstage', hother, by rw [← hs]; rfl,
        by rw [← hs]; rfl, by rw [← hs]; rfl, by rw [← hs]; rfl, by rw [← hs]; rfl,
        fun hown => absurd hown Bool.false_ne_true,
        hok hsame ?_ hiterate ?_ hlimit⟩
      · rw [← hs]
        exact place_setPlace_self s i _
      · rw [QueueState.updates, if_neg Bool.false_ne_true, ← hs]
      · exact WriteBatch.sequence_setSequence _ (sequenceAfter_eq hiterate hlimit).2

variable {stage : Stage} {group : Group}

theorem Queue.started (h : Queue s)
    (hplace : (s.call i).place = .makingRoom allow_delay force)
    (hs : Started s i stage group s') : Queue s' := by
  have hfront := h.front_room hplace
  have hi := mem_of_front hfront
  have hwriting : ∀ j stage' group', (s'.call j).place = .writing stage' group' →
      j = i ∧ stage' = stage ∧ group' = group := by
    intro j stage' group' hj
    by_cases hji : j = i
    · rw [hji, hs.place] at hj
      cases hj
      exact ⟨hji, rfl, rfl⟩
    · rw [hs.other j hji] at hj
      exact absurd (h.eq_of_writing hfront hj) hji
  refine h.of_sameQueue hs.same (fun j hj => ?_) (fun j hj => ?_) (fun j hj => ?_)
    (fun j stage' group' hj => ?_) (fun hown => ?_) (fun c hc j hj => ?_)
    (by rw [hs.added, hs.applied]; exact h.added)
    (h.applied_congr hs.same.completed hs.applied ?_)
  · by_cases hji : j = i
    · rw [hji, hs.place]
      exact trivial
    · rw [hs.other j hji]
      exact h.inside j hj
  · rw [hs.other j (h.ne_of_mem_tail hfront hj)]
    exact h.behind j hj
  · have hji : j ≠ i := fun heq => absurd (h.lt_pushed hi) (not_lt.2 (heq ▸ hj))
    rw [hs.other j hji]
    exact (h.unborn j hj).1
  · obtain ⟨rfl, -, rfl⟩ := hwriting j stage' group' hj
    exact hs.ok
  · rw [hs.tmp (hown i stage group hs.place)]
    refine h.tmp fun j stage' group' hj => ?_
    rw [h.eq_of_writing hfront hj, hplace] at hj
    cases hj
  · have hji : j ≠ i := fun heq => h.not_mem_writers hc hj (heq ▸ hi)
    rw [hs.other j hji]
    exact h.left c hc j hj
  · rw [pending_eq_nil, pending_eq_nil]
    · rintro j hj ⟨group', hj'⟩
      rw [hfront, Option.some.injEq] at hj
      rw [← hj, hplace] at hj'
      cases hj'
    · rintro j - ⟨group', hj'⟩
      obtain ⟨-, hstage, -⟩ := hwriting j _ group' hj'
      rcases hs.stage with hstage' | hstage' <;> rw [hstage'] at hstage <;> cases hstage

/-! ### Insertion -/

theorem flatMap_parts (s : QueueState) (sequence : ℕ) (members : List ℕ) :
    (s.parts sequence members).flatMap Prod.snd =
      batchEntries sequence (members.flatMap s.ops) := by
  induction members generalizing sequence with
  | nil => rfl
  | cons j members ih =>
    rw [parts, flatMap_cons, batchEntries_append]
    split_ifs with hbatch
    · rw [flatMap_cons, ih]
    · rw [ih, ops_eq_nil (Option.not_isSome_iff_eq_none.1 hbatch)]
      rfl

theorem map_fst_parts (s : QueueState) (sequence : ℕ) (members : List ℕ) :
    (s.parts sequence members).map Prod.fst =
      members.filter fun j => (s.call j).batch.isSome := by
  induction members generalizing sequence with
  | nil => rfl
  | cons j members ih =>
    rw [parts]
    split_ifs with hbatch
    · rw [map_cons, ih, filter_cons, if_pos hbatch]
    · rw [ih, filter_cons, if_neg hbatch]

/-- What `InsertInto` does. -/
structure Insertion (s : QueueState) (i : ℕ) (group : Group) (s' : QueueState) : Prop where
  same : SameQueue s s'
  applied : s'.applied = s.applied ++ s.parts (s.db.last_sequence + 1) (s.members group)
  added : s'.added = s.added ++
    batchEntries (s.db.last_sequence + 1) ((s.members group).flatMap s.ops)
  db : s'.db = { s.db with
    mem := (batchEntries (s.db.last_sequence + 1) ((s.members group).flatMap s.ops)).foldl
      memTableAdd s.db.mem }
  call : s'.call = (s.setPlace i (.writing (.lock .ok) group)).call
  bg_error : s'.bg_error = s.bg_error
  dropped : s'.dropped = s.dropped
  tmp_batch : s'.tmp_batch = s.tmp_batch

theorem insertInto_spec (h : Queue s)
    (hplace : (s.call i).place = .writing stage group)
    (hs : s.insertInto i group = some s') : Insertion s i group s' := by
  obtain ⟨b, hupdates, hiterate, hsequence⟩ := (h.group i stage group hplace).updates
  have hinsert : b.insertInto =
      (.ok, batchEntries (s.db.last_sequence + 1) ((s.members group).flatMap s.ops)) := by
    rw [WriteBatch.insertInto, hiterate, hsequence]
  unfold insertInto at hs
  simp only [hupdates, hinsert, hsequence, Option.some.injEq] at hs
  subst hs
  exact ⟨⟨rfl, rfl, rfl, rfl, fun j => ops_congr (batch_setPlace s i j _),
    fun j => congrArg Option.isSome (batch_setPlace s i j _), fun j => sync_setPlace s i j _,
    fun j => done_setPlace s i j _⟩, rfl, rfl, rfl, rfl, rfl, rfl, rfl⟩

theorem Queue.inserted (h : Queue s)
    (hplace : (s.call i).place = .writing .insertInto group) (hs : Insertion s i group s') :
    Queue s' := by
  have hfront := h.front_writing hplace
  have hi := mem_of_front hfront
  have hwriters := hs.same.writers
  have hself : (s'.call i).place = .writing (.lock .ok) group := by
    rw [hs.call, place_setPlace_self]
  have hother : ∀ j, j ≠ i → s'.call j = s.call j := fun j hj => by
    rw [hs.call, call_setPlace_of_ne s hj]
  have hpending : s.pending = [] := pending_eq_nil fun j hj hin => by
    obtain ⟨group', hj'⟩ := hin
    rw [hfront, Option.some.injEq] at hj
    rw [← hj, hplace] at hj'
    cases hj'
  have hpending' : s'.pending = s.members group := by
    rw [pending_of_lock (hwriters ▸ hfront) hself, members, members, hwriters]
  refine h.of_sameQueue hs.same (fun j hj => ?_) (fun j hj => ?_) (fun j hj => ?_)
    (fun j stage group' hj => ?_) (fun hown => ?_) (fun c hc j hj => ?_) ?_ ?_
  · by_cases hji : j = i
    · rw [hji, hself]
      exact trivial
    · rw [hother j hji]
      exact h.inside j hj
  · rw [hother j (h.ne_of_mem_tail hfront hj)]
    exact h.behind j hj
  · have hji : j ≠ i := fun heq => absurd (h.lt_pushed hi) (not_lt.2 (heq ▸ hj))
    rw [hother j hji]
    exact (h.unborn j hj).1
  · have hcongr : ∀ k group', k ∈ s.writers → GroupOk s k group' → GroupOk s' k group' :=
      fun k group' hk hok => hok.congr hk (hwriters.trans (append_nil _).symm)
        hs.same.last_sequence hs.tmp_batch fun l _ =>
          ⟨by rw [hs.call, batch_setPlace], hs.same.sync l⟩
    by_cases hji : j = i
    · subst hji
      rw [hself] at hj
      cases hj
      exact hcongr j group hi (h.group j _ group hplace)
    · rw [hother j hji] at hj
      exact hcongr j group' (mem_of_front (h.front_writing hj)) (h.group j stage group' hj)
  · rw [hs.tmp_batch]
    refine h.tmp fun j stage group' hj => ?_
    rw [h.eq_of_writing hfront hj, hplace] at hj
    cases hj
    exact hown i _ group hself
  · have hji : j ≠ i := fun heq => h.not_mem_writers hc hj (heq ▸ hi)
    rw [hother j hji]
    exact h.left c hc j hj
  · rw [hs.added, hs.applied, flatMap_append, flatMap_parts, h.added]
  · rw [hs.applied, map_append, map_fst_parts, h.applied, committed, committed, hpending,
      hpending', append_nil, hs.same.completed, filter_append]

/-! ### All moves -/

theorem not_writing_iff {place place' : Place}
    (h : ∀ stage group, place ≠ .writing stage group)
    (h' : ∀ stage group, place' ≠ .writing stage group) (group : Group) :
    (∃ stage, place = .writing stage group) ↔ ∃ stage, place' = .writing stage group := by
  constructor
  · rintro ⟨stage, heq⟩
    exact absurd heq (h stage group)
  · rintro ⟨stage, heq⟩
    exact absurd heq (h' stage group)

theorem Queue.setPlace_room (h : Queue s) (hfront : s.writers.head? = some i)
    (hbefore : ∀ stage group, (s.call i).place ≠ .writing stage group) (allow_delay force : Bool)
    {db : DBState Bytes Bytes} (hlast : db.last_sequence = s.db.last_sequence) (log : List Bytes) :
    Queue { s.setPlace i (.makingRoom allow_delay force) with db := db, log := log } := by
  refine h.setPlace hfront (show Place.InQueue (.makingRoom allow_delay force) from trivial)
    (not_writing_iff hbefore fun stage group heq => Place.noConfusion heq) ?_
    (fun group heq => Place.noConfusion heq) hlast log
  rintro ⟨group, heq⟩
  exact hbefore _ group heq

theorem Queue.setPlace_writing (h : Queue s) {stage' : Stage}
    (hplace : (s.call i).place = .writing stage group) (hbefore : stage ≠ .lock .ok)
    (hafter : stage' ≠ .lock .ok) (log : List Bytes) :
    Queue { s.setPlace i (.writing stage' group) with db := s.db, log := log } := by
  refine h.setPlace (h.front_writing hplace)
    (show Place.InQueue (.writing stage' group) from trivial) (fun group' => ?_) ?_
    (fun group' heq => ?_) rfl log
  · constructor
    · rintro ⟨_, heq⟩
      rw [hplace] at heq
      cases heq
      exact ⟨stage', rfl⟩
    · rintro ⟨_, heq⟩
      cases heq
      exact ⟨stage, hplace⟩
  · rintro ⟨group', heq⟩
    rw [hplace] at heq
    cases heq
    exact hbefore rfl
  · cases heq
    exact hafter rfl

variable {status : Status}

theorem Queue.complete_alone (h : Queue s)
    (hplace : (s.call i).place = .makingRoom allow_delay force)
    (hstatus : status ≠ .ok ∨ (s.call i).batch = none)
    (hs : s.complete i i status status = some s') : Queue s' := by
  have hfront := h.front_room hplace
  have hi := mem_of_front hfront
  have htmp : s.tmp_batch = .new := h.tmp fun j stage group hwriting => by
    rw [h.eq_of_writing hfront hwriting, hplace] at hwriting
    cases hwriting
  have hupTo : upTo i s.writers = [i] := by
    cases hw : s.writers with
    | nil =>
      rw [hw] at hi
      cases hi
    | cons j rest =>
      rw [hw] at hfront
      cases hfront
      exact upTo_head i rest
  have hpending : s.pending = [] := pending_eq_nil fun j hj hin => by
    obtain ⟨group, hj'⟩ := hin
    rw [hfront, Option.some.injEq] at hj
    rw [← hj, hplace] at hj'
    cases hj'
  refine h.of_completion hfront hi (fun j hj hsync => ?_) ?_ htmp (completion_of_complete hi hs)
  · rw [hupTo] at hj
    rwa [mem_singleton.1 hj] at hsync
  · rw [hpending, hupTo]
    rcases hstatus with hstatus | hbatch
    · rw [if_neg hstatus]
    · split_ifs
      · rw [filter_cons, hbatch]
        rfl
      · rfl

theorem completion_of_finishGroup
    (hlast : group.last_writer ∈ s.writers) (hs : s.finishGroup i group status = some s') :
    s.db.last_sequence ≤ group.last_sequence ∧ Completion { s with
      tmp_batch := if group.own then s.tmp_batch else s.tmp_batch.clear
      db := { s.db with last_sequence := group.last_sequence } } i group.last_writer .ok status
        s' := by
  unfold QueueState.finishGroup at hs
  by_cases hle : s.db.last_sequence ≤ group.last_sequence
  · rw [if_pos hle] at hs
    exact ⟨hle, completion_of_complete (show group.last_writer ∈ ({ s with
      tmp_batch := if group.own then s.tmp_batch else s.tmp_batch.clear
      db := { s.db with last_sequence := group.last_sequence } } : QueueState).writers
      from hlast) hs⟩
  · rw [if_neg hle] at hs
    cases hs

theorem Queue.finishGroup (h : Queue s)
    (hplace : (s.call i).place = .writing (.lock status) group)
    (hs : s.finishGroup i group status = some s') : Queue s' := by
  have hfront := h.front_writing hplace
  have hok := h.group i _ group hplace
  have htmp : (if group.own = true then s.tmp_batch else s.tmp_batch.clear) = .new := by
    split_ifs with hown
    · refine h.tmp fun j stage group' hwriting => ?_
      rw [h.eq_of_writing hfront hwriting, hplace] at hwriting
      cases hwriting
      exact hown
    · rfl
  refine h.of_completion hfront hok.last hok.sync ?_ htmp (completion_of_finishGroup hok.last hs).2
  by_cases hstatus : status = .ok
  · subst hstatus
    rw [if_pos rfl, pending_of_lock hfront hplace]
    rfl
  · rw [if_neg hstatus, pending_eq_nil]
    rintro j hj ⟨group', hj'⟩
    rw [hfront, Option.some.injEq] at hj
    rw [← hj, hplace] at hj'
    cases hj'
    exact hstatus rfl

theorem Queue.completed_of_done (h : Queue s) (hdone : (s.call i).done = true) :
    ∃ c ∈ s.completed, i ∈ c.members := by
  have hlt : i < s.pushed := by
    by_contra hle
    rw [(h.unborn i (not_lt.1 hle)).2] at hdone
    cases hdone
  refine (h.completed_or_mem hlt).resolve_right fun hmem => ?_
  rw [h.pending_done i hmem] at hdone
  cases hdone

theorem Queue.completed_of_place (h : Queue s) {place : Place} (hplace : (s.call i).place = place)
    (hout : ¬ place.InQueue) : ∃ c ∈ s.completed, i ∈ c.members := by
  subst hplace
  have hlt : i < s.pushed := by
    by_contra hle
    rw [(h.unborn i (not_lt.1 hle)).1] at hout
    exact hout trivial
  exact (h.completed_or_mem hlt).resolve_right fun hmem => hout (h.inside i hmem)

theorem Queue.move (h : Queue s) (hs : Move o fails pushes errors s s') : Queue s' := by
  cases hs with
  | push hpushes batch sync => exact h.pushCall batch sync
  | enter hfront hplace =>
    exact h.setPlace_room hfront (fun stage group heq => Place.noConfusion (hplace.symm.trans heq))
      _ _ rfl s.log
  | release hplace allow_delay' =>
    exact h.setPlace_room (h.front_room hplace)
      (fun stage group heq => Place.noConfusion (hplace.symm.trans heq)) _ _ rfl s.log
  | @switch i _ _ db hplace hdb =>
    refine h.setPlace_room (h.front_room hplace)
      (fun stage group heq => Place.noConfusion (hplace.symm.trans heq)) _ _ ?_ []
    rw [(DBState.switchMemTable_some hdb).2]
  | refuse hplace hstatus hcause hs => exact h.complete_alone hplace (Or.inl hstatus) hs
  | forced hplace herror hbatch hs => exact h.complete_alone hplace (Or.inr hbatch) hs
  | start hplace herror hbatch hs =>
    obtain ⟨stage, group, hstarted⟩ := startGroup_spec h hplace hs
    exact h.started hplace hstarted
  | record hplace stage hstage record =>
    refine h.setPlace_writing hplace Stage.noConfusion ?_ _
    rcases hstage with rfl | rfl <;> exact Stage.noConfusion
  | synced hplace => exact h.setPlace_writing hplace Stage.noConfusion Stage.noConfusion s.log
  | fail hfails hplace hstage hstatus =>
    refine h.setPlace_writing hplace ?_ (fun heq => hstatus (Stage.lock.inj heq)) s.log
    rcases hstage with rfl | rfl <;> exact Stage.noConfusion
  | insert hplace hs => exact h.inserted hplace (insertInto_spec h hplace hs)
  | finish hplace hs => exact h.finishGroup hplace hs
  | @leave i hplace hdone =>
    obtain ⟨c, hc, hi⟩ := h.completed_of_done hdone
    refine h.setPlace_outside hc hi
      (fun stage group heq => Place.noConfusion (hplace.symm.trans heq)) (fun stage group heq => ?_)
      fun status hleft => ?_
    · split_ifs at heq
    · rw [Call.Left, hplace] at hleft
      rw [Call.Left]
      by_cases hflush : (s.call i).batch.isNone ∧ (s.call i).status = .ok
      · simp only [hflush, and_self, if_true]
        exact Option.isNone_iff_eq_none.1 hflush.1
      · simp only [hflush, if_false]
        exact fun _ => hleft.2
  | @flushed i hplace hwait =>
    obtain ⟨c, hc, hi⟩ := h.completed_of_place hplace id
    refine h.setPlace_outside hc hi
      (fun stage group heq => Place.noConfusion (hplace.symm.trans heq))
      (fun stage group heq => Place.noConfusion heq) fun status hleft => ?_
    rw [Call.Left, hplace] at hleft
    rw [Call.Left]
    dsimp only at hleft ⊢
    rw [hleft]
    exact fun hsome => absurd hsome Bool.false_ne_true
  | background haction hdb => exact h.congr_db (dbStep_background haction hdb).2.1 s.bg_error _
  | error herrors herror status => exact h.congr_db rfl status s.dropped

theorem Queue.moves (h : Queue s) (hs : Moves o fails pushes errors s s') : Queue s' := by
  induction hs with
  | refl => exact h
  | tail _ hmove ih => exact ih.move hmove

/-! ### Kinds of moves -/

/-- The database of a move that inserts nothing and completes no group. -/
inductive DBMoved (o : QueueOptions) (s s' : QueueState) : Prop
  | same (hdb : s'.db = s.db) (hdropped : s'.dropped = s.dropped)
  | switch (hdb : s.db.switchMemTable = some s'.db) (hdropped : s'.dropped = s.dropped)
  | background {action : DBAction Bytes Bytes} (haction : action.isBackgroundWork = true)
      (hdb : dbStep o.db s.db action = some s'.db)
      (hdropped : s'.dropped = s.dropped ++ s.db.droppedBy action)

/-- A move that inserts nothing and completes no group. -/
structure Quiet (o : QueueOptions) (fails pushes : Prop) (s s' : QueueState) : Prop where
  applied : s'.applied = s.applied
  added : s'.added = s.added
  completed : s'.completed = s.completed
  pushed : s.pushed ≤ s'.pushed
  not_pushed : ¬ pushes → s'.pushed = s.pushed
  request : ∀ j < s.pushed, (s'.call j).batch.isSome = (s.call j).batch.isSome ∧
    s'.ops j = s.ops j ∧ (s'.call j).sync = (s.call j).sync
  lock : ∀ j group, (s'.call j).place = .writing (.lock .ok) group ↔
    (s.call j).place = .writing (.lock .ok) group
  locked : ¬ fails → ∀ j status group, (s'.call j).place = .writing (.lock status) group →
    (s.call j).place = .writing (.lock status) group
  db : DBMoved o s s'

/-- The moves, by what they do to groups. -/
inductive Kind (o : QueueOptions) (fails pushes : Prop) (s s' : QueueState) : Prop
  | quiet (hquiet : Quiet o fails pushes s s')
  /-- A writer completes its own call, and writes nothing. -/
  | room {i : ℕ} {allow_delay force : Bool} {status : Status}
      (hplace : (s.call i).place = .makingRoom allow_delay force)
      (hc : Completion s i i status status s')
  | insert {i : ℕ} {group : Group} (hplace : (s.call i).place = .writing .insertInto group)
      (hins : Insertion s i group s')
  | finish {i : ℕ} {group : Group} {status : Status} {tmp_batch : WriteBatch}
      (hplace : (s.call i).place = .writing (.lock status) group)
      (hle : s.db.last_sequence ≤ group.last_sequence)
      (hc : Completion { s with
        tmp_batch := tmp_batch
        db := { s.db with last_sequence := group.last_sequence } } i group.last_writer
          .ok status s')

theorem Quiet.last_sequence (h : Quiet o fails pushes s s') :
    s'.db.last_sequence = s.db.last_sequence := by
  cases h.db with
  | same hdb hdropped => rw [hdb]
  | switch hdb hdropped => rw [(DBState.switchMemTable_some hdb).2]
  | background haction hdb hdropped => exact (dbStep_background haction hdb).2.1

theorem quiet_setPlace {place : Place} {db : DBState Bytes Bytes} {log : List Bytes}
    (hbefore : ∀ status group, (s.call i).place ≠ .writing (.lock status) group)
    (hafter : ∀ status group, place = .writing (.lock status) group → fails ∧ status ≠ .ok)
    (hdb : DBMoved o s { s.setPlace i place with db := db, log := log }) :
    Quiet o fails pushes s { s.setPlace i place with db := db, log := log } := by
  have hself := place_setPlace_self s i place
  refine ⟨rfl, rfl, rfl, le_rfl, fun _ => rfl, fun j _ => ⟨?_, ?_, sync_setPlace s i j place⟩,
    fun j group => ?_, fun hfails j status group heq => ?_, hdb⟩
  · exact congrArg Option.isSome (batch_setPlace s i j place)
  · exact ops_congr (batch_setPlace s i j place)
  · by_cases hji : j = i
    · rw [hji]
      refine iff_of_false (fun heq => ?_) (hbefore .ok group)
      exact (hafter .ok group (hself.symm.trans heq)).2 rfl
    · exact (call_setPlace_of_ne s hji place).symm ▸ Iff.rfl
  · by_cases hji : j = i
    · rw [hji] at heq
      exact absurd (hafter status group (hself.symm.trans heq)).1 hfails
    · exact (congrArg Call.place (call_setPlace_of_ne s hji place)).symm.trans heq

theorem quiet_pushCall (hq : Queue s) (hpushes : pushes) (batch : Option ReadableBatch)
    (sync : Bool) : Quiet o fails pushes s (s.pushCall batch sync) := by
  have hother : ∀ j, j ≠ s.pushed → (s.pushCall batch sync).call j = s.call j :=
    fun j hj => Function.update_of_ne hj _ _
  have hplace : ∀ j, ((s.pushCall batch sync).call j).place = (s.call j).place := by
    intro j
    by_cases hj : j = s.pushed
    · rw [hj, s.place_pushCall, (hq.unborn _ le_rfl).1]
    · rw [hother j hj]
  refine ⟨rfl, rfl, rfl, Nat.le_succ _, fun hnot => absurd hpushes hnot, fun j hj => ?_,
    fun j group => by rw [hplace], fun _ j status group heq => (hplace j).symm.trans heq,
    .same rfl rfl⟩
  have hcall := hother j (Nat.ne_of_lt hj)
  exact ⟨by rw [hcall], ops_congr (by rw [hcall]), by rw [hcall]⟩

/-- **What a move does**: everything but insertions and completions is quiet. -/
theorem Move.kind (hq : Queue s) (hs : Move o fails pushes errors s s') :
    Kind o fails pushes s s' := by
  cases hs with
  | push hpushes batch sync => exact .quiet (quiet_pushCall hq hpushes batch sync)
  | enter hfront hplace =>
    exact .quiet (quiet_setPlace (fun _ _ heq => Place.noConfusion (hplace.symm.trans heq))
      (fun _ _ heq => Place.noConfusion heq) (.same rfl rfl))
  | release hplace allow_delay' =>
    exact .quiet (quiet_setPlace (fun _ _ heq => Place.noConfusion (hplace.symm.trans heq))
      (fun _ _ heq => Place.noConfusion heq) (.same rfl rfl))
  | switch hplace hdb =>
    exact .quiet (quiet_setPlace (fun _ _ heq => Place.noConfusion (hplace.symm.trans heq))
      (fun _ _ heq => Place.noConfusion heq) (.switch hdb rfl))
  | refuse hplace hstatus hcause hs =>
    exact .room hplace (completion_of_complete (Queue.mem_of_front (hq.front_room hplace)) hs)
  | forced hplace herror hbatch hs =>
    exact .room hplace (completion_of_complete (Queue.mem_of_front (hq.front_room hplace)) hs)
  | @start _ i _ hplace herror hbatch hs =>
    obtain ⟨stage, group, hstarted⟩ := startGroup_spec hq hplace hs
    -- the writer starts with the log or with the memtable
    have hlock : ∀ j status group', (s'.call j).place = .writing (.lock status) group' ↔
        (s.call j).place = .writing (.lock status) group' := by
      intro j status group'
      by_cases hji : j = i
      · rw [hji, hstarted.place, hplace]
        refine iff_of_false (fun heq => ?_) Place.noConfusion
        rcases hstarted.stage with hstage | hstage <;> rw [hstage] at heq <;> cases heq
      · rw [hstarted.other j hji]
    exact .quiet ⟨hstarted.applied, hstarted.added, hstarted.same.completed,
      hstarted.same.pushed.ge, fun _ => hstarted.same.pushed,
      fun j _ => ⟨hstarted.same.isSome j, hstarted.same.ops j, hstarted.same.sync j⟩,
      fun j group' => hlock j .ok group', fun _ j status group' => (hlock j status group').1,
      .same hstarted.db hstarted.dropped⟩
  | record hplace stage hstage record =>
    refine .quiet (quiet_setPlace (fun _ _ heq => ?_) (fun _ _ heq => ?_) (.same rfl rfl))
    · cases hplace.symm.trans heq
    · rcases hstage with rfl | rfl <;> cases heq
  | synced hplace =>
    refine .quiet (quiet_setPlace (fun _ _ heq => ?_) (fun _ _ heq => ?_) (.same rfl rfl))
    · cases hplace.symm.trans heq
    · cases heq
  | fail hfails hplace hstage hstatus =>
    refine .quiet (quiet_setPlace (fun _ _ heq => ?_) (fun _ _ heq => ?_) (.same rfl rfl))
    · rcases hstage with rfl | rfl <;> cases hplace.symm.trans heq
    · cases heq
      exact ⟨hfails, hstatus⟩
  | insert hplace hs => exact .insert hplace (insertInto_spec hq hplace hs)
  | finish hplace hs =>
    obtain ⟨hle, hc⟩ := completion_of_finishGroup (hq.group _ _ _ hplace).last hs
    exact .finish hplace hle hc
  | leave hplace hdone =>
    refine .quiet (quiet_setPlace (fun _ _ heq => Place.noConfusion (hplace.symm.trans heq))
      (fun _ _ heq => ?_) (.same rfl rfl))
    split_ifs at heq
  | flushed hplace hwait =>
    exact .quiet (quiet_setPlace (fun _ _ heq => Place.noConfusion (hplace.symm.trans heq))
      (fun _ _ heq => Place.noConfusion heq) (.same rfl rfl))
  | background haction hdb =>
    exact .quiet ⟨rfl, rfl, rfl, le_rfl, fun _ => rfl, fun _ _ => ⟨rfl, rfl, rfl⟩,
      fun _ _ => Iff.rfl, fun _ _ _ _ => id, .background haction hdb rfl⟩
  | error herrors herror status =>
    exact .quiet ⟨rfl, rfl, rfl, le_rfl, fun _ => rfl, fun _ _ => ⟨rfl, rfl, rfl⟩,
      fun _ _ => Iff.rfl, fun _ _ _ _ => id, .same rfl rfl⟩

theorem queue_init (db : DBState Bytes Bytes) : Queue (init db) := by
  refine
    { order := rfl
      pending_done := fun j hj => absurd hj not_mem_nil
      inside := fun j hj => absurd hj not_mem_nil
      behind := fun j hj => absurd hj not_mem_nil
      unborn := fun j _ => ⟨rfl, rfl⟩
      group := fun j stage group hplace => Place.noConfusion hplace
      tmp := fun _ => rfl
      left := fun c hc => absurd hc not_mem_nil
      leader := fun c hc => absurd hc not_mem_nil
      synced := fun c hc => absurd hc not_mem_nil
      added := rfl
      applied := rfl }

end QueueState

end Bourbon
