import Bourbon.Lib.ListIterator
import Bourbon.Lib.Pieces
import Bourbon.Table.Block

/-!
# The two-level iterator

`TwoLevelIterator` has an iterator over an index, whose values are handles of blocks, and an
iterator over the current block.  Blocks without entries are skipped in both directions.  The
iterator over a block is kept as long as the index stands at a handle with the same bytes.

* `TwoLevelIterator.iterator` : the operations, for any index, any blocks and any block function;
* `TwoLevelIterator.Blocks` : what the index and the blocks have to be;
* `TwoLevelIterator.iterator_follows` : the iterator moves over the concatenation of the blocks;
* `TwoLevelIterator.twoLevel_eq_cursor` : so it is a cursor over them.

The rounds of the loops that skip empty blocks are bounded by a parameter.
-/

namespace Bourbon

open Option

open SortedIterator

/-- The members of `TwoLevelIterator`. -/
structure TwoLevelIterator (σ τ H : Type*) where
  index_iter : σ
  data_iter : Option τ
  /-- The handle that was passed to the block function to create `data_iter`. -/
  data_block_handle : H
  status : Status

/-- The iterators of the two levels and the block function. -/
structure TwoLevelSource (σ τ α ι H : Type*) where
  index : SortedIterator σ (ι × H) ι
  data : SortedIterator τ α ι
  data_status : τ → Status
  block_function : H → τ

namespace TwoLevelIterator

variable {σ τ α ι H : Type*}

section

variable [DecidableEq H] (src : TwoLevelSource σ τ α ι H)

/-- `SetDataIterator`; the first error of a block is saved. -/
def setDataIterator (it : TwoLevelIterator σ τ H) (data_iter : Option τ) :
    TwoLevelIterator σ τ H :=
  { it with
    status := match it.data_iter with
      | some d => if it.status = .ok then src.data_status d else it.status
      | none => it.status
    data_iter := data_iter }

/-- `InitDataBlock`. -/
def initDataBlock (it : TwoLevelIterator σ τ H) : TwoLevelIterator σ τ H :=
  match src.index.entry it.index_iter with
  | none => it.setDataIterator src none
  | some (_, handle) =>
    if it.data_iter.isSome ∧ handle = it.data_block_handle then it
    else { it.setDataIterator src (some (src.block_function handle)) with
      data_block_handle := handle }

/-- A move of the iterator over the current block, if there is one. -/
def moveData (move : τ → Option τ) (it : TwoLevelIterator σ τ H) :
    Option (TwoLevelIterator σ τ H) :=
  match it.data_iter with
  | none => some it
  | some d => (move d).map fun d => { it with data_iter := some d }

/-- A move of the index, after which the block there is entered. -/
def moveIndex (move : σ → Option σ) (enter : τ → Option τ) (it : TwoLevelIterator σ τ H) :
    Option (TwoLevelIterator σ τ H) :=
  (move it.index_iter).bind fun index_iter =>
    moveData enter (initDataBlock src { it with index_iter := index_iter })

/-- The loops of `SkipEmptyDataBlocksForward` and `SkipEmptyDataBlocksBackward`, for at most
`rounds` rounds. -/
def skipEmptyDataBlocks (move : σ → Option σ) (enter : τ → Option τ) :
    ℕ → TwoLevelIterator σ τ H → Option (TwoLevelIterator σ τ H)
  | 0, _ => none
  | rounds + 1, it =>
    if (it.data_iter.bind src.data.entry).isSome then some it
    else if (src.index.entry it.index_iter).isSome then
      (moveIndex src move enter it).bind (skipEmptyDataBlocks move enter rounds)
    else some (it.setDataIterator src none)

/-- `SkipEmptyDataBlocksForward`. -/
def skipEmptyDataBlocksForward (rounds : ℕ) (it : TwoLevelIterator σ τ H) :
    Option (TwoLevelIterator σ τ H) :=
  skipEmptyDataBlocks src src.index.next src.data.seekToFirst rounds it

/-- `SkipEmptyDataBlocksBackward`. -/
def skipEmptyDataBlocksBackward (rounds : ℕ) (it : TwoLevelIterator σ τ H) :
    Option (TwoLevelIterator σ τ H) :=
  skipEmptyDataBlocks src src.index.prev src.data.seekToLast rounds it

/-- The current entry. -/
def entry (it : TwoLevelIterator σ τ H) : Option α := it.data_iter.bind src.data.entry

/-- The operations of `TwoLevelIterator`; `none` is a failed assertion. -/
def iterator (rounds : ℕ) : SortedIterator (TwoLevelIterator σ τ H) α ι where
  entry := entry src
  seekToFirst it := (moveIndex src src.index.seekToFirst src.data.seekToFirst it).bind
    (skipEmptyDataBlocksForward src rounds)
  seekToLast it := (moveIndex src src.index.seekToLast src.data.seekToLast it).bind
    (skipEmptyDataBlocksBackward src rounds)
  seek target it := (moveIndex src (src.index.seek target) (src.data.seek target) it).bind
    (skipEmptyDataBlocksForward src rounds)
  next it :=
    if (entry src it).isSome then
      (moveData src.data.next it).bind (skipEmptyDataBlocksForward src rounds)
    else none
  prev it :=
    if (entry src it).isSome then
      (moveData src.data.prev it).bind (skipEmptyDataBlocksBackward src rounds)
    else none

end

/-! ### Positions -/

/-- The index has the entries `idx`, the block with handle `h` the entries `contents h`.  A target
behind a separator is behind the block, and a target not behind it is not behind later blocks. -/
structure Blocks (src : TwoLevelSource σ τ α ι H) (beforeIndex : ι → ι × H → Bool)
    (before : ι → α → Bool) (idx : List (ι × H)) (contents : H → List α) (posI : ℕ → σ → Prop)
    (posD : H → ℕ → τ → Prop) : Prop where
  index : src.index.Follows beforeIndex idx posI
  data : ∀ e ∈ idx, src.data.Follows before (contents e.2) (posD e.2)
  block_function : ∀ e ∈ idx, posD e.2 (contents e.2).length (src.block_function e.2)
  status : ∀ e ∈ idx, ∀ i d, posD e.2 i d → src.data_status d = .ok
  behind : ∀ target, ∀ e ∈ idx, beforeIndex target e = true → ∀ a ∈ contents e.2,
    before target a = true
  ahead : idx.Pairwise fun e e' => ∀ target, beforeIndex target e = false → ∀ a ∈ contents e'.2,
    before target a = false

/-- The index stands at entry `j`, which is `e`, and the iterator over its block at `i`. -/
structure Inside (idx : List (ι × H)) (posI : ℕ → σ → Prop) (posD : H → ℕ → τ → Prop) (j : ℕ)
    (e : ι × H) (i : ℕ) (it : TwoLevelIterator σ τ H) : Prop where
  status : it.status = .ok
  index : posI j it.index_iter
  handle : idx[j]? = some e ∧ it.data_block_handle = e.2
  data : ∃ d, it.data_iter = some d ∧ posD e.2 i d

/-- There is no current block. -/
structure Outside (posI : ℕ → σ → Prop) (j : ℕ) (it : TwoLevelIterator σ τ H) : Prop where
  status : it.status = .ok
  index : posI j it.index_iter
  data : it.data_iter = none

/-- The iterator stands at position `k` of the concatenated blocks. -/
def At (idx : List (ι × H)) (contents : H → List α) (posI : ℕ → σ → Prop) (posD : H → ℕ → τ → Prop)
    (k : ℕ) (it : TwoLevelIterator σ τ H) : Prop :=
  (∃ j e i, Inside idx posI posD j e i it ∧ i < (contents e.2).length ∧
    k = Pieces.offset (fun e => contents e.2) idx j + i) ∨
  (∃ j, Outside posI j it) ∧ k = (idx.flatMap fun e => contents e.2).length

variable {src : TwoLevelSource σ τ α ι H} {beforeIndex : ι → ι × H → Bool}
  {before : ι → α → Bool} {idx : List (ι × H)}
  {contents : H → List α} {posI : ℕ → σ → Prop} {posD : H → ℕ → τ → Prop}
  {it : TwoLevelIterator σ τ H} {i j k rounds : ℕ} {e : ι × H}

theorem At.cases (h : At idx contents posI posD k it) :
    (∃ j e i, Inside idx posI posD j e i it) ∨ ∃ j, Outside posI j it := by
  rcases h with ⟨j, e, i, h, -, -⟩ | ⟨h, -⟩
  · exact .inl ⟨j, e, i, h⟩
  · exact .inr h

theorem Inside.mem (h : Inside idx posI posD j e i it) : e ∈ idx := List.mem_of_getElem? h.handle.1

theorem Inside.entry_eq (hb : Blocks src beforeIndex before idx contents posI posD)
    (h : Inside idx posI posD j e i it) : entry src it = (contents e.2)[i]? := by
  obtain ⟨d, hd, hpos⟩ := h.data
  rw [entry, hd, bind_some, (hb.data e h.mem).entry hpos]

theorem Outside.entry_eq (h : Outside posI j it) : entry src it = none := by
  rw [entry, h.data, bind_none]

theorem At.entry_eq (hb : Blocks src beforeIndex before idx contents posI posD)
    (h : At idx contents posI posD k it) :
    entry src it = (idx.flatMap fun e => contents e.2)[k]? := by
  rcases h with ⟨j, e, i, h, hi, rfl⟩ | ⟨⟨j, h⟩, rfl⟩
  · rw [h.entry_eq hb, Pieces.getElem?_flatMap h.handle.1 hi]
  · rw [h.entry_eq, List.getElem?_length]

theorem At.le (h : At idx contents posI posD k it) :
    k ≤ (idx.flatMap fun e => contents e.2).length := by
  rcases h with ⟨j, e, i, h, hi, rfl⟩ | ⟨-, rfl⟩
  · have hsucc := Pieces.offset_succ (f := fun e : ι × H => contents e.2) h.handle.1
    have hle := Pieces.offset_le (f := fun e : ι × H => contents e.2) idx (j + 1)
    omega
  · exact le_rfl

theorem At.inside (h : At idx contents posI posD k it)
    (hk : k < (idx.flatMap fun e => contents e.2).length) :
    ∃ j e i, Inside idx posI posD j e i it ∧ i < (contents e.2).length ∧
      k = Pieces.offset (fun e => contents e.2) idx j + i := by
  rcases h with h | ⟨-, rfl⟩
  · exact h
  · exact absurd hk (lt_irrefl _)

theorem Inside.moveData {move : τ → Option τ} {i' : ℕ} (h : Inside idx posI posD j e i it)
    (hmove : ∀ d, posD e.2 i d → ∃ d', move d = some d' ∧ posD e.2 i' d') :
    ∃ it', moveData move it = some it' ∧ Inside idx posI posD j e i' it' := by
  obtain ⟨d, hd, hpos⟩ := h.data
  obtain ⟨d', hd', hpos'⟩ := hmove d hpos
  exact ⟨{ it with data_iter := some d' }, by
    simp only [TwoLevelIterator.moveData, hd, hd', map_some],
    h.status, h.index, h.handle, d', rfl, hpos'⟩

/-! ### Moves -/

variable [DecidableEq H]

variable {move : σ → Option σ} {enter : τ → Option τ} {q : List α → ℕ}

variable (hb : Blocks src beforeIndex before idx contents posI posD)
include hb

/-- **A move of the index**, from anywhere, and the move of the iterator over the new block. -/
theorem moveIndex_spec
    (h : (∃ j e i, Inside idx posI posD j e i it) ∨ ∃ j, Outside posI j it)
    (hmove : ∃ s, move it.index_iter = some s ∧ posI j s)
    (henter : ∀ e ∈ idx, ∀ i d, posD e.2 i d → ∃ d', enter d = some d' ∧
      posD e.2 (q (contents e.2)) d') :
    ∃ it', moveIndex src move enter it = some it' ∧
      (∀ e, idx[j]? = some e → Inside idx posI posD j e (q (contents e.2)) it') ∧
      (idx[j]? = none → Outside posI j it') := by
  obtain ⟨s, hs, hpos⟩ := hmove
  have hentry := hb.index.entry hpos
  -- leaving a block of this table saves no error
  have hset : ∀ x, (setDataIterator src { it with index_iter := s } x).status = .ok := by
    intro x
    rcases h with ⟨j, e, i, hin⟩ | ⟨j, hout⟩
    · obtain ⟨d, hd, hposd⟩ := hin.data
      simp only [setDataIterator, hd, hin.status, if_true]
      exact hb.status e hin.mem i d hposd
    · simp only [setDataIterator, hout.data]
      exact hout.status
  rw [moveIndex, hs, bind_some, initDataBlock]
  simp only [hentry]
  cases hj : idx[j]? with
  | none =>
    refine ⟨_, rfl, fun e he => (by cases he), fun _ => ⟨hset none, hpos, rfl⟩⟩
  | some e' =>
    have hmem := List.mem_of_getElem? hj
    simp only
    split_ifs with hsame
    · -- the iterator over the block is kept
      obtain ⟨hsome, hhandle⟩ := hsame
      rcases h with ⟨j', e, i, hin⟩ | ⟨j', hout⟩
      · obtain ⟨d, hd, hposd⟩ := hin.data
        rw [← hin.handle.2, ← hhandle] at hposd
        obtain ⟨d', hd', hposd'⟩ := henter e' hmem i d hposd
        refine ⟨{ it with index_iter := s, data_iter := some d' }, ?_, ?_, fun h => (by cases h)⟩
        · simp only [moveData, hd, hd', map_some]
        · intro e he
          obtain rfl := some.inj he
          exact ⟨hin.status, hpos, ⟨hj, hhandle.symm⟩, d', rfl, hposd'⟩
      · rw [hout.data] at hsome
        cases hsome
    · obtain ⟨d', hd', hposd'⟩ := henter e' hmem _ _ (hb.block_function e' hmem)
      refine ⟨_, by simp only [moveData, setDataIterator, hd', map_some]; rfl, ?_,
        fun h => (by cases h)⟩
      intro e he
      obtain rfl := some.inj he
      exact ⟨hset none, hpos, ⟨hj, rfl⟩, d', rfl, hposd'⟩

theorem skip_of_lt
    (h : Inside idx posI posD j e i it) (hi : i < (contents e.2).length) :
    skipEmptyDataBlocks src move enter (rounds + 1) it = some it := by
  have hentry := h.entry_eq hb
  rw [entry, List.getElem?_eq_getElem hi] at hentry
  rw [skipEmptyDataBlocks, hentry, isSome_some, if_pos rfl]

theorem skip_outside
    (h : Outside posI j it) (hj : idx[j]? = none) :
    ∃ it', skipEmptyDataBlocks src move enter (rounds + 1) it = some it' ∧
      At idx contents posI posD (idx.flatMap fun e => contents e.2).length it' := by
  have hindex : src.index.entry it.index_iter = none := by rw [hb.index.entry h.index, hj]
  rw [skipEmptyDataBlocks, h.data, bind_none, hindex]
  simp only [isSome_none, Bool.false_eq_true, if_false]
  refine ⟨_, rfl, .inr ⟨⟨j, ?_, h.index, rfl⟩, rfl⟩⟩
  simp only [setDataIterator, h.data]
  exact h.status

theorem skip_of_end
    (h : Inside idx posI posD j e (contents e.2).length it) (move : σ → Option σ)
    (enter : τ → Option τ) (rounds : ℕ) :
    skipEmptyDataBlocks src move enter (rounds + 1) it =
      (moveIndex src move enter it).bind (skipEmptyDataBlocks src move enter rounds) := by
  have hentry := h.entry_eq hb
  rw [entry, List.getElem?_length] at hentry
  have hindex : src.index.entry it.index_iter = some e := by
    rw [hb.index.entry h.index, h.handle.1]
  rw [skipEmptyDataBlocks, hentry, hindex]
  simp only [isSome_none, Bool.false_eq_true, if_false, isSome_some, if_true]

omit hb

/-- **Skipping forwards** goes to the first entry from here on. -/
theorem skipForward_spec (rounds : ℕ) (hb : Blocks src beforeIndex before idx contents posI posD)
    (h : Inside idx posI posD j e i it) (hrounds : idx.length - j < rounds) :
    ∃ it', skipEmptyDataBlocksForward src rounds it = some it' ∧
      At idx contents posI posD (Pieces.offset (fun e => contents e.2) idx j + i) it' := by
  induction rounds generalizing it j e i with
  | zero => omega
  | succ rounds ih =>
    have hdata := hb.data e h.mem
    have hj : j < idx.length := (List.getElem?_eq_some_iff.1 h.handle.1).1
    obtain ⟨d, hd, hposd⟩ := h.data
    rw [skipEmptyDataBlocksForward]
    rcases (hdata.le hposd).eq_or_lt with rfl | hi
    · obtain ⟨it', hit', hin, hout⟩ := moveIndex_spec (q := fun _ => 0) hb (.inl ⟨j, e, _, h⟩)
        (hb.index.next h.index hj) fun e he i d hd => (hb.data e he).seekToFirst hd
      rw [skip_of_end hb h, hit', bind_some, ← Pieces.offset_succ h.handle.1]
      rcases (Nat.succ_le_of_lt hj).eq_or_lt with hend | hmore
      · have hnone : idx[j + 1]? = none := List.getElem?_eq_none hend.ge
        obtain ⟨rounds', rfl⟩ : ∃ r, rounds = r + 1 := ⟨rounds - 1, by omega⟩
        have hlen : Pieces.offset (fun e => contents e.2) idx (j + 1) =
            (idx.flatMap fun e => contents e.2).length := by
          rw [← Pieces.offset_length, ← hend]
        rw [hlen]
        exact skip_outside hb (hout hnone) hnone
      · have := ih (hin _ (List.getElem?_eq_getElem hmore)) (by omega)
        rwa [Nat.add_zero] at this
    · exact ⟨it, skip_of_lt hb h hi, .inl ⟨j, e, i, h, hi, rfl⟩⟩

/-- **Skipping backwards** from the end of a block goes to the last entry before the block. -/
theorem skipBackward_spec (rounds : ℕ) (hb : Blocks src beforeIndex before idx contents posI posD)
    (h : Inside idx posI posD j e (contents e.2).length it) (hrounds : j + 1 < rounds) :
    ∃ it', skipEmptyDataBlocksBackward src rounds it = some it' ∧
      At idx contents posI posD (if Pieces.offset (fun e => contents e.2) idx j = 0 then
        (idx.flatMap fun e => contents e.2).length
        else Pieces.offset (fun e => contents e.2) idx j - 1) it' := by
  induction rounds generalizing it j e with
  | zero => omega
  | succ rounds ih =>
    have hj : j < idx.length := (List.getElem?_eq_some_iff.1 h.handle.1).1
    obtain ⟨rounds', rfl⟩ : ∃ r, rounds = r + 1 := ⟨rounds - 1, by omega⟩
    obtain ⟨it', hit', hin, hout⟩ := moveIndex_spec (q := fun l => l.length - 1) hb
      (.inl ⟨j, e, _, h⟩) (hb.index.prev h.index hj) fun e he i d hd => (hb.data e he).seekToLast hd
    rw [skipEmptyDataBlocksBackward, skip_of_end hb h, hit', bind_some]
    cases j with
    | zero =>
      rw [if_pos rfl] at hout
      rw [Pieces.offset_zero, if_pos rfl]
      exact skip_outside hb (hout (List.getElem?_length _)) (List.getElem?_length _)
    | succ j =>
      rw [if_neg (Nat.succ_ne_zero j), Nat.add_sub_cancel] at hin
      have hget := List.getElem?_eq_getElem (Nat.lt_of_succ_lt hj)
      have hin := hin _ hget
      have hsucc := Pieces.offset_succ (f := fun e : ι × H => contents e.2) hget
      rcases Nat.eq_zero_or_pos (contents idx[j].2).length with hzero | hpos
      · -- the block has no entries
        rw [hzero, Nat.zero_sub, ← hzero] at hin
        rw [hsucc, hzero, Nat.add_zero]
        exact ih hin (by omega)
      · have hlt : (contents idx[j].2).length - 1 < (contents idx[j].2).length :=
          Nat.sub_lt hpos Nat.one_pos
        rw [if_neg (by omega)]
        exact ⟨it', skip_of_lt hb hin hlt, .inl ⟨j, _, _, hin, hlt, by omega⟩⟩

theorem skipForward_of_move (rounds : ℕ)
    (hb : Blocks src beforeIndex before idx contents posI posD)
    (hin : ∀ e, idx[j]? = some e → Inside idx posI posD j e (q (contents e.2)) it)
    (hout : idx[j]? = none → Outside posI j it) (hle : j ≤ idx.length)
    (hrounds : idx.length < rounds) :
    ∃ it', skipEmptyDataBlocksForward src rounds it = some it' ∧
      At idx contents posI posD (Pieces.offset (fun e => contents e.2) idx j +
        (idx[j]?.elim 0 fun e => q (contents e.2))) it' := by
  cases hj : idx[j]? with
  | none =>
    have hend : j = idx.length := le_antisymm hle (List.getElem?_eq_none_iff.1 hj)
    obtain ⟨r, rfl⟩ : ∃ r, rounds = r + 1 := ⟨rounds - 1, by omega⟩
    rw [elim_none, Nat.add_zero, hend, Pieces.offset_length]
    exact skip_outside hb (hout hj) hj
  | some e => exact skipForward_spec rounds hb (hin e hj) (by omega)

/-- **The two-level iterator moves over the concatenation of the blocks.** -/
theorem iterator_follows (hb : Blocks src beforeIndex before idx contents posI posD)
    (hrounds : idx.length + 1 < rounds) :
    (iterator src rounds).Follows before (idx.flatMap fun e => contents e.2)
      (At idx contents posI posD) where
  le := At.le
  entry := At.entry_eq hb
  seekToFirst := by
    intro k it h
    have hmove := match h.cases with
      | .inl ⟨_, _, _, h⟩ => hb.index.seekToFirst h.index
      | .inr ⟨_, h⟩ => hb.index.seekToFirst h.index
    obtain ⟨it', hit', hin, hout⟩ := moveIndex_spec (q := fun _ => 0) hb h.cases hmove
      fun e he i d hd => (hb.data e he).seekToFirst hd
    obtain ⟨it'', hit'', hat⟩ := skipForward_of_move (q := fun _ => 0) rounds hb hin hout
      (Nat.zero_le _) (by omega)
    refine ⟨it'', by simp only [iterator, hit', bind_some, hit''], ?_⟩
    have hzero : (idx[0]?.elim 0 fun e => (fun _ => 0) (contents e.2)) = 0 := by
      cases idx[0]? <;> rfl
    rwa [Pieces.offset_zero, hzero] at hat
  seekToLast := by
    intro k it h
    have hmove := match h.cases with
      | .inl ⟨_, _, _, h⟩ => hb.index.seekToLast h.index
      | .inr ⟨_, h⟩ => hb.index.seekToLast h.index
    obtain ⟨it', hit', hin, hout⟩ := moveIndex_spec (q := fun l => l.length - 1) hb h.cases hmove
      fun e he i d hd => (hb.data e he).seekToLast hd
    obtain ⟨r, rfl⟩ : ∃ r, rounds = r + 1 := ⟨rounds - 1, by omega⟩
    simp only [iterator, hit', bind_some]
    rcases Nat.eq_zero_or_pos idx.length with hzero | hpos
    · obtain rfl := List.eq_nil_of_length_eq_zero hzero
      exact skip_outside hb (hout rfl) rfl
    · have hlast : idx.length - 1 < idx.length := Nat.sub_lt hpos Nat.one_pos
      have hget := List.getElem?_eq_getElem hlast
      have hin := hin _ hget
      have hsucc := Pieces.offset_succ (f := fun e : ι × H => contents e.2) hget
      rw [Nat.sub_add_cancel hpos, Pieces.offset_length] at hsucc
      rcases Nat.eq_zero_or_pos (contents idx[idx.length - 1].2).length with hempty | hne
      · rw [hempty, Nat.zero_sub, ← hempty] at hin
        obtain ⟨it'', hit'', hat⟩ := skipBackward_spec (r + 1) hb hin (by omega)
        refine ⟨it'', hit'', ?_⟩
        rw [hsucc, hempty, Nat.add_zero]
        rw [hsucc, hempty, Nat.add_zero] at hat
        split_ifs at hat with h0
        · rwa [h0] at hat ⊢
        · exact hat
      · have hlt : (contents idx[idx.length - 1].2).length - 1 <
          (contents idx[idx.length - 1].2).length := Nat.sub_lt hne Nat.one_pos
        exact ⟨it', skip_of_lt hb hin hlt, .inl ⟨_, _, _, hin, hlt, by omega⟩⟩
  seek := by
    intro k it target h
    have hmove := match h.cases with
      | .inl ⟨_, _, _, h⟩ => hb.index.seek target h.index
      | .inr ⟨_, h⟩ => hb.index.seek target h.index
    obtain ⟨it', hit', hin, hout⟩ := moveIndex_spec
      (q := fun l => l.findIdx fun a => !before target a) hb h.cases hmove
      fun e he i d hd => (hb.data e he).seek target hd
    obtain ⟨it'', hit'', hat⟩ :=
      skipForward_of_move rounds hb hin hout List.findIdx_le_length (by omega)
    refine ⟨it'', by simp only [iterator, hit', bind_some, hit''], ?_⟩
    rw [Pieces.findIdx_flatMap (j := idx.findIdx fun e => !beforeIndex target e)]
    · exact hat
    · intro e he a ha
      obtain ⟨m, hm, rfl⟩ := List.mem_take_iff_getElem.1 he
      have hskip := List.not_of_lt_findIdx (hm.trans_le (min_le_left _ _))
      rw [hb.behind target _ (List.getElem_mem _) (by simpa using hskip) a ha, Bool.not_true]
    · intro e he a ha
      obtain ⟨m, hm, rfl⟩ := List.mem_drop_iff_getElem.1 he
      have hlt : (idx.findIdx fun e => !beforeIndex target e) < idx.length := by omega
      have hfound := List.findIdx_getElem (w := hlt)
      have := List.pairwise_iff_getElem.1 hb.ahead _ _ hlt (by omega) (by omega) target
        (by simpa using hfound) a ha
      rw [this, Bool.not_false]
  next := by
    intro k it h hk
    have hentry := h.entry_eq hb
    obtain ⟨j, e, i, hin, hi, rfl⟩ := h.inside hk
    obtain ⟨it', hit', hin'⟩ := hin.moveData fun d hd => (hb.data e hin.mem).next hd hi
    obtain ⟨it'', hit'', hat⟩ := skipForward_spec rounds hb hin' (by omega)
    rw [List.getElem?_eq_getElem hk] at hentry
    exact ⟨it'', by simp only [iterator, hentry, isSome_some, if_true, hit',
      bind_some, hit''], hat⟩
  prev := by
    intro k it h hk
    have hentry := h.entry_eq hb
    obtain ⟨j, e, i, hin, hi, rfl⟩ := h.inside hk
    have hj : j < idx.length := (List.getElem?_eq_some_iff.1 hin.handle.1).1
    obtain ⟨it', hit', hin'⟩ := hin.moveData fun d hd => (hb.data e hin.mem).prev hd hi
    rw [List.getElem?_eq_getElem hk] at hentry
    simp only [iterator, hentry, isSome_some, if_true, hit', bind_some]
    cases i with
    | zero =>
      rw [if_pos rfl] at hin'
      exact skipBackward_spec rounds hb hin' (by omega)
    | succ i =>
      obtain ⟨r, rfl⟩ : ∃ r, rounds = r + 1 := ⟨rounds - 1, by omega⟩
      rw [if_neg (Nat.succ_ne_zero i), Nat.add_sub_cancel] at hin'
      rw [if_neg (by omega)]
      have hlt := Nat.lt_of_succ_lt hi
      exact ⟨it', skip_of_lt hb hin' hlt, .inl ⟨j, e, i, hin', hlt, rfl⟩⟩

/-- **The two-level iterator is a cursor over the concatenated blocks.**  Each separator is not
before the keys of its block and is before the keys of all later blocks, and the block function
gives iterators over the blocks without errors.  After every sequence of calls in which neighbours
are asked for only at an entry, the iterator stands at the entry of the cursor. -/
theorem twoLevel_eq_cursor [LinearOrder ι] (src : TwoLevelSource σ τ α ι H) (key : α → ι)
    (idx : List (ι × H)) (contents : H → List α)
    (hblock : ∀ e ∈ idx, ∀ a ∈ contents e.2, key a ≤ e.1)
    (hnext : idx.Pairwise fun e e' => ∀ a ∈ contents e'.2, e.1 < key a)
    (posI : ℕ → σ → Prop) (posD : H → ℕ → τ → Prop)
    (hindex : src.index.Follows (fun target e => decide (e.1 < target)) idx posI)
    (hdata : ∀ e ∈ idx,
      src.data.Follows (fun target a => decide (key a < target)) (contents e.2) (posD e.2))
    (hfunction : ∀ e ∈ idx, posD e.2 (contents e.2).length (src.block_function e.2))
    (hstatus : ∀ e ∈ idx, ∀ i d, posD e.2 i d → src.data_status d = .ok) (index_iter : σ)
    (hstart : ∃ j, posI j index_iter) (handle : H) (rounds : ℕ) (hrounds : idx.length + 1 < rounds)
    (calls : List (SortedIterator.Call ι)) (k : ℕ)
    (hcalls : Steps.run (Follows.cursorCall (fun target a => decide (key a < target))
      (idx.flatMap fun e => contents e.2)) (idx.flatMap fun e => contents e.2).length calls =
        some k) :
    ∃ it, Steps.run (iterator src rounds).call ⟨index_iter, none, handle, .ok⟩ calls = some it ∧
      entry src it = (idx.flatMap fun e => contents e.2)[k]? := by
  have hb : Blocks src (fun target e => decide (e.1 < target))
      (fun target a => decide (key a < target)) idx contents posI posD := by
    refine ⟨hindex, hdata, hfunction, hstatus, fun target e he hlt a ha => ?_, ?_⟩
    · exact decide_eq_true ((hblock e he a ha).trans_lt (of_decide_eq_true hlt))
    · refine hnext.imp fun {e e'} hlt target hge a ha => decide_eq_false (not_lt.2 ?_)
      exact (not_lt.1 (of_decide_eq_false hge)).trans (hlt a ha).le
  obtain ⟨j, hj⟩ := hstart
  have hat : At idx contents posI posD (idx.flatMap fun e => contents e.2).length
      (⟨index_iter, none, handle, .ok⟩ : TwoLevelIterator σ τ H) :=
    .inr ⟨⟨j, rfl, hj, rfl⟩, rfl⟩
  obtain ⟨it, hrun, hit⟩ := (iterator_follows hb hrounds).run hat hcalls
  exact ⟨it, hrun, hit.entry_eq hb⟩

/-- Three blocks, of which the second one is empty, under the separators 2, 5 and 6. -/
theorem twoLevel_eq_cursor_emptyBlock :
    ∃ it, Steps.run (iterator (⟨list Prod.fst, list id, fun _ => .ok, fun h => ⟨h, h.length⟩⟩ :
        TwoLevelSource (ListCursor (ℕ × List ℕ)) (ListCursor ℕ) ℕ ℕ (List ℕ)) 5).call
        ⟨⟨[(2, [1, 2]), (5, []), (6, [6])], 3⟩, none, [], .ok⟩ [.seek 3, .prev, .next] = some it ∧
      it.data_iter.bind (list id).entry = some 6 :=
  twoLevel_eq_cursor ⟨list Prod.fst, list id, fun _ => .ok, fun h => ⟨h, h.length⟩⟩ id
    [(2, [1, 2]), (5, []), (6, [6])] id (by decide) (by decide) _
    (fun h i d => d = ⟨h, i⟩ ∧ i ≤ h.length) (follows_list Prod.fst _)
    (fun e _ => follows_list id e.2) (fun _ _ => ⟨rfl, le_rfl⟩) (fun _ _ _ _ _ => rfl) _
    ⟨3, rfl, by decide⟩ [] 5 (by decide) [.seek 3, .prev, .next] 2 rfl

end TwoLevelIterator

end Bourbon
