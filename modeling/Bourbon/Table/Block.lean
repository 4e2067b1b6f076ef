import Bourbon.Lib.Bisect
import Bourbon.Lib.Pieces
import Bourbon.Util.Coding

/-!
# Blocks

`table/block_builder.cc` and `table/block.h`: a block is a sequence of entries, the offsets of its
restart points, and their number.  In this fork no entry shares a key prefix with its predecessor,
so every entry decodes on its own.

* `decodeEntry_encodeEntry` : an entry reads back in front of any bytes;
* `decodeEntry_inside_iff` : what `DecodeEntry` accepts lies inside the block, unless the sum of two
  lengths wraps around.
-/

namespace Bourbon

open List

/-- The outcomes of `Status` that reading a table can produce. -/
inductive Status where
  | ok
  | notFound (msg : String)
  | corruption (msg : String)
  | ioError (msg : String)
  deriving DecidableEq

/-! ### Building -/

/-- `BlockBuilder`. -/
structure BlockBuilder where
  /-- Destination buffer. -/
  buffer : Bytes
  /-- Restart points. -/
  restarts : List ℕ
  /-- Number of entries emitted since restart. -/
  counter : ℕ
  last_key : Bytes

namespace BlockBuilder

/-- `BlockBuilder::Reset`. -/
def new : BlockBuilder := ⟨[], [0], 0, []⟩

/-- `BlockBuilder::CurrentSizeEstimate`. -/
def currentSizeEstimate (b : BlockBuilder) : ℕ := b.buffer.length + b.restarts.length * 4 + 4

/-- `BlockBuilder::Finish`. -/
def finish (b : BlockBuilder) : Bytes :=
  b.buffer ++ b.restarts.flatMap encodeFixed32 ++ encodeFixed32 b.restarts.length

/-- `BlockBuilder::Add`; the search for a shared prefix is commented out in the source. -/
def add (block_restart_interval : ℕ) (b : BlockBuilder) (key value : Bytes) : BlockBuilder :=
  let shared := 0
  let (restarts, counter) := if b.counter < block_restart_interval then (b.restarts, b.counter)
    else (b.restarts ++ [b.buffer.length % 2 ^ 32], 0)
  let non_shared := key.length - shared
  { buffer := b.buffer ++ (encodeVarint32 shared ++ encodeVarint32 (non_shared % 2 ^ 32) ++
      encodeVarint32 (value.length % 2 ^ 32) ++ key.drop shared ++ value)
    restarts := restarts
    counter := counter + 1
    last_key := b.last_key.take shared ++ key.drop shared }

end BlockBuilder

/-! ### Reading -/

/-- `DecodeEntry` on the bytes from `p` to `limit`: the lengths `shared`, `non_shared` and
`value_length`, and the bytes from the key delta on; `none` is the null pointer. -/
def decodeEntry (p : Bytes) : Option (ℕ × ℕ × ℕ × Bytes) :=
  if p.length < 3 then none
  else
    let shared := (p.getD 0 0).toNat
    let non_shared := (p.getD 1 0).toNat
    let value_length := (p.getD 2 0).toNat
    let lengths := if shared ||| non_shared ||| value_length < 128 then
        -- all three values are encoded in one byte each
        some (shared, non_shared, value_length, p.drop 3)
      else do
        let (shared, p) ← getVarint32Ptr p
        let (non_shared, p) ← getVarint32Ptr p
        let (value_length, p) ← getVarint32Ptr p
        some (shared, non_shared, value_length, p)
    match lengths with
    | none => none
    | some (shared, non_shared, value_length, p) =>
      if p.length % 2 ^ 32 < (non_shared + value_length) % 2 ^ 32 then none
      else some (shared, non_shared, value_length, p)

/-- `Block`, the contents of a block. -/
structure Block where
  data : Bytes
  /-- Zero marks an error. -/
  size : ℕ
  /-- Offset in `data` of the restart array. -/
  restart_offset : ℕ
  deriving DecidableEq

namespace Block

/-- `Block::NumRestarts`. -/
def numRestarts (data : Bytes) : ℕ := decodeFixed32 (data.drop (data.length - 4))

/-- The constructor of `Block`. -/
def new (contents : Bytes) : Block :=
  if contents.length < 4 then ⟨contents, 0, 0⟩
  else
    let max_restarts_allowed := (contents.length - 4) / 4
    if numRestarts contents > max_restarts_allowed then ⟨contents, 0, 0⟩
    else ⟨contents, contents.length,
      (contents.length - (1 + numRestarts contents) * 4) % 2 ^ 32⟩

/-- `Block::Iter`.  The slice `value_` is kept as its offset in `data` and its length. -/
structure Iter where
  data : Bytes
  /-- Offset of the restart array. -/
  restarts : ℕ
  num_restarts : ℕ
  /-- Offset in `data` of the current entry, at least `restarts` if not valid. -/
  current : ℕ
  /-- Index of the restart block in which `current` falls. -/
  restart_index : ℕ
  key : Bytes
  value_offset : ℕ
  value_length : ℕ
  status : Status

/-- `Block::NewIterator`: an error iterator, an empty iterator or an `Iter`. -/
def newIterator (b : Block) : Except Status (Option Iter) :=
  if b.size < 4 then .error (.corruption "bad block contents")
  else
    let num_restarts := numRestarts b.data
    if num_restarts = 0 then .ok none
    else .ok (some ⟨b.data, b.restart_offset, num_restarts, b.restart_offset,
      num_restarts, [], 0, 0,
      .ok⟩)

namespace Iter

/-- `Valid`. -/
def valid (it : Iter) : Bool := it.current < it.restarts

/-- `value()`. -/
def value (it : Iter) : Bytes := (it.data.drop it.value_offset).take it.value_length

/-- `NextEntryOffset`. -/
def nextEntryOffset (it : Iter) : ℕ := (it.value_offset + it.value_length) % 2 ^ 32

/-- `GetRestartPoint`. -/
def getRestartPoint (it : Iter) (index : ℕ) : ℕ :=
  decodeFixed32 (it.data.drop (it.restarts + index * 4))

/-- `SeekToRestartPoint`. -/
def seekToRestartPoint (it : Iter) (index : ℕ) : Iter :=
  { it with
    key := [], restart_index := index, value_offset := it.getRestartPoint index, value_length := 0 }

/-- `CorruptionError`. -/
def corruptionError (it : Iter) : Iter :=
  { it with
    current := it.restarts, restart_index := it.num_restarts
    status := .corruption "bad entry in block", key := [], value_offset := 0, value_length := 0 }

/-- The loop of `ParseNextKey` that moves `restart_index` up to the entry at `current`. -/
def advanceRestart (it : Iter) : ℕ → ℕ → ℕ
  | 0, index => index
  | fuel + 1, index =>
    if index + 1 < it.num_restarts ∧ it.getRestartPoint (index + 1) < it.current then
      advanceRestart it fuel (index + 1)
    else index

/-- `ParseNextKey`. -/
def parseNextKey (it : Iter) : Iter × Bool :=
  let it := { it with current := it.nextEntryOffset }
  if it.current ≥ it.restarts then
    -- no more entries to return
    ({ it with current := it.restarts, restart_index := it.num_restarts }, false)
  else
    match decodeEntry ((it.data.take it.restarts).drop it.current) with
    | none => (it.corruptionError, false)
    | some (shared, non_shared, value_length, p) =>
      if it.key.length < shared then (it.corruptionError, false)
      else
        ({ it with
          key := it.key.take shared ++ p.take non_shared
          value_offset := it.restarts - p.length + non_shared
          value_length := value_length
          restart_index := it.advanceRestart it.num_restarts it.restart_index }, true)

/-- The comparison of the key at a restart point with the target in `Seek`; `none` is a
corruption. -/
def restartBefore (compare : Bytes → Bytes → Ordering) (it : Iter) (target : Bytes) (mid : ℕ) :
    Option Bool :=
  match decodeEntry ((it.data.take it.restarts).drop (it.getRestartPoint mid)) with
  | none => none
  | some (shared, non_shared, _, key_ptr) =>
    if shared ≠ 0 then none else some (compare (key_ptr.take non_shared) target == .lt)

/-- The linear search of `Seek`. -/
def seekLoop (compare : Bytes → Bytes → Ordering) (target : Bytes) : ℕ → Iter → Iter
  | 0, it => it
  | fuel + 1, it =>
    let (it, ok) := it.parseNextKey
    if !ok || compare it.key target != .lt then it else seekLoop compare target fuel it

/-- `Seek`. -/
def seek (compare : Bytes → Bytes → Ordering) (it : Iter) (target : Bytes) : Iter :=
  match Bisect.lastTrue? (it.restartBefore compare target) 0 (it.num_restarts - 1) with
  | none => it.corruptionError
  | some left => seekLoop compare target (it.restarts + 1) (it.seekToRestartPoint left)

/-- `SeekToFirst`. -/
def seekToFirst (it : Iter) : Iter := (it.seekToRestartPoint 0).parseNextKey.1

/-- The loop of `SeekToLast` and `Prev`: parse entries until one ends at `limit` or behind it. -/
def parseUntil (limit : ℕ) : ℕ → Iter → Option Iter
  | 0, _ => none
  | fuel + 1, it =>
    let (it, ok) := it.parseNextKey
    if ok && it.nextEntryOffset < limit then parseUntil limit fuel it else some it

/-- `SeekToLast`. -/
def seekToLast (it : Iter) : Option Iter :=
  parseUntil it.restarts (it.restarts + 1) (it.seekToRestartPoint (it.num_restarts - 1))

/-- `Next`; `none` is a failed assertion. -/
def next (it : Iter) : Option Iter := if it.valid then some it.parseNextKey.1 else none

/-- The first loop of `Prev`: the last restart point from `restart_index` down that is before the
current entry. -/
def restartBack (it : Iter) : ℕ → Option ℕ
  | 0 => if it.getRestartPoint 0 ≥ it.current then none else some 0
  | index + 1 =>
    if it.getRestartPoint (index + 1) ≥ it.current then restartBack it index else some (index + 1)

/-- `Prev`; `none` is a failed assertion. -/
def prev (it : Iter) : Option Iter :=
  if it.valid && it.restart_index < it.num_restarts then
    match it.restartBack it.restart_index with
    | none => some { it with current := it.restarts, restart_index := it.num_restarts }
    | some index => parseUntil it.current (it.restarts + 1) (it.seekToRestartPoint index)
  else none

end Iter

end Block

/-! ### Entries -/

/-- The bytes of one entry, a key and a value. -/
def encodeEntry (e : Bytes × Bytes) : Bytes :=
  encodeVarint32 0 ++ encodeVarint32 (e.1.length % 2 ^ 32) ++
  encodeVarint32 (e.2.length % 2 ^ 32) ++
    e.1 ++ e.2

theorem encodeVarint32_ne_nil (v : ℕ) : encodeVarint32 v ≠ [] := by
  simp only [encodeVarint32]
  split_ifs <;> exact cons_ne_nil _ _

theorem length_le_encodeEntry (e : Bytes × Bytes) :
    e.1.length + e.2.length + 3 ≤ (encodeEntry e).length := by
  have h : ∀ v, 1 ≤ (encodeVarint32 v).length := fun v =>
    length_pos_iff.2 (encodeVarint32_ne_nil v)
  have h0 := h 0
  have h1 := h (e.1.length % 2 ^ 32)
  have h2 := h (e.2.length % 2 ^ 32)
  simp only [encodeEntry, length_append]
  omega

theorem three_le_length_encodeEntry (e : Bytes × Bytes) : 3 ≤ (encodeEntry e).length :=
  le_of_add_le_right (length_le_encodeEntry e)

theorem encodeVarint32_cases {v : ℕ} (h : v < 2 ^ 32) :
    (v < 128 ∧ encodeVarint32 v = [UInt8.ofNat v]) ∨
      ∃ q, encodeVarint32 v = UInt8.ofNat (v ||| 128) :: q := by
  rw [encodeVarint32_eq h, encodeVarint64]
  rcases lt_or_ge v 128 with hlt | hge
  · exact Or.inl ⟨hlt, encodeVarintLoop_of_lt hlt⟩
  · exact Or.inr ⟨_, encodeVarintLoop_of_ge hge⟩

theorem or_lt_high_bit {a b c : ℕ} : a ||| b ||| c < 128 ↔ a < 128 ∧ b < 128 ∧ c < 128 := by
  constructor
  · intro h
    have h1 : a ||| b ≤ a ||| b ||| c := Nat.left_le_or
    have h2 : c ≤ a ||| b ||| c := Nat.right_le_or
    have h3 : a ≤ a ||| b := Nat.left_le_or
    have h4 : b ≤ a ||| b := Nat.right_le_or
    omega
  · rintro ⟨ha, hb, hc⟩
    exact Nat.or_lt_two_pow (n := 7) (Nat.or_lt_two_pow ha hb) hc

/-- **An entry reads back** in front of any bytes, as long as lengths fit in 32 bits. -/
theorem decodeEntry_encodeEntry (e : Bytes × Bytes) (rest : Bytes)
    (h : (encodeEntry e ++ rest).length < 2 ^ 32) :
    decodeEntry (encodeEntry e ++ rest) =
      some (0, e.1.length, e.2.length, e.1 ++ e.2 ++ rest) := by
  obtain ⟨k, v⟩ := e
  have hlen := length_le_encodeEntry (k, v)
  rw [length_append] at h
  simp only at hlen
  have hk : k.length < 2 ^ 32 := by omega
  have hv : v.length < 2 ^ 32 := by omega
  have hp : encodeEntry (k, v) ++ rest = encodeVarint32 0 ++ (encodeVarint32 k.length ++
      (encodeVarint32 v.length ++ (k ++ v ++ rest))) := by
    simp only [encodeEntry, Nat.mod_eq_of_lt hk, Nat.mod_eq_of_lt hv, append_assoc]
  have h3 : ¬ (encodeEntry (k, v) ++ rest).length < 3 := by
    rw [length_append]; omega
  have hrest : ¬ (k ++ v ++ rest).length % 2 ^ 32 < (k.length + v.length) % 2 ^ 32 := by
    have hl : (k ++ v ++ rest).length = k.length + v.length + rest.length := by
      simp only [length_append]
    rw [hl, Nat.mod_eq_of_lt (by omega), Nat.mod_eq_of_lt (by omega)]
    omega
  -- the slow path reads the three varints
  have hslow : (do
        let (shared, p) ← getVarint32Ptr (encodeEntry (k, v) ++ rest)
        let (non_shared, p) ← getVarint32Ptr p
        let (value_length, p) ← getVarint32Ptr p
        some (shared, non_shared, value_length, p)) =
      some (0, k.length, v.length, k ++ v ++ rest) := by
    rw [hp, getVarint32Ptr_encodeVarint32 (by decide)]
    simp only [Option.bind_eq_bind, Option.bind_some]
    rw [getVarint32Ptr_encodeVarint32 hk]
    simp only [Option.bind_some]
    rw [getVarint32Ptr_encodeVarint32 hv]
    rfl
  -- the fast path is taken only if all three fit in one byte each
  have hfast : ((encodeEntry (k, v) ++ rest).getD 0 0).toNat |||
      ((encodeEntry (k, v) ++ rest).getD 1 0).toNat |||
      ((encodeEntry (k, v) ++ rest).getD 2 0).toNat < 128 →
      (((encodeEntry (k, v) ++ rest).getD 0 0).toNat,
        ((encodeEntry (k, v) ++ rest).getD 1 0).toNat,
        ((encodeEntry (k, v) ++ rest).getD 2 0).toNat, (encodeEntry (k, v) ++ rest).drop 3) =
      (0, k.length, v.length, k ++ v ++ rest) := by
    rw [or_lt_high_bit, hp]
    have h0 : encodeVarint32 0 = [0] := rfl
    rw [h0]
    rintro ⟨-, hb1, hb2⟩
    rcases encodeVarint32_cases hk with ⟨hk', he⟩ | ⟨q, he⟩
    · rw [he] at hb2 ⊢
      rcases encodeVarint32_cases hv with ⟨hv', he'⟩ | ⟨q, he'⟩
      · rw [he']
        simp only [singleton_append, getD_cons_zero, getD_cons_succ,
          UInt8.toNat_ofNat', drop_succ_cons, drop_zero, Prod.mk.injEq, and_true]
        refine ⟨rfl, ?_, ?_⟩ <;> omega
      · rw [he'] at hb2
        simp only [cons_append, nil_append, getD_cons_zero, getD_cons_succ,
          ofNat_or_high_bit] at hb2
        omega
    · rw [he] at hb1
      simp only [cons_append, nil_append, getD_cons_zero, getD_cons_succ,
        ofNat_or_high_bit] at hb1
      omega
  rw [decodeEntry, if_neg h3]
  simp only
  split_ifs with hc
  · rw [hfast hc]
    simp only [if_neg hrest]
  · rw [hslow]
    simp only [if_neg hrest]

/-! ### Damaged entries -/

section

variable {p q : Bytes} {shared non_shared value_length : ℕ}

theorem decodeEntry_spec (h : decodeEntry p = some (shared, non_shared, value_length, q)) :
    q <:+ p ∧ value_length < 2 ^ 32 ∧
      (non_shared + value_length) % 2 ^ 32 ≤ q.length % 2 ^ 32 := by
  rw [decodeEntry] at h
  split_ifs at h with hlen
  simp only at h
  split at h
  · cases h
  · rename_i heq
    split_ifs at h with hchecked
    cases h
    rw [and_left_comm]
    refine ⟨?_, ?_, not_lt.1 hchecked⟩ <;> split_ifs at heq with hfast
    · cases heq
      exact (UInt8.toNat_lt _).trans (by decide)
    · simp only [Option.bind_eq_bind, Option.bind_eq_some_iff] at heq
      obtain ⟨⟨a, p1⟩, -, ⟨b, p2⟩, -, ⟨c, p3⟩, hc, heq⟩ := heq
      cases heq
      exact getVarint32Ptr_lt hc
    · cases heq
      exact drop_suffix 3 p
    · simp only [Option.bind_eq_bind, Option.bind_eq_some_iff] at heq
      obtain ⟨⟨a, p1⟩, ha, ⟨b, p2⟩, hb, ⟨c, p3⟩, hc, heq⟩ := heq
      cases heq
      exact ((local_getVarint32Ptr.suffix hc).trans (local_getVarint32Ptr.suffix hb)).trans
        (local_getVarint32Ptr.suffix ha)

theorem decodeEntry_le_iff (h : decodeEntry p = some (shared, non_shared, value_length, q))
    (hp : p.length < 2 ^ 32) :
    non_shared + value_length ≤ q.length ↔ non_shared + value_length < 2 ^ 32 := by
  obtain ⟨hsuffix, -, hchecked⟩ := decodeEntry_spec h
  have := hsuffix.length_le
  omega

end

/-- **An entry lies inside the block exactly if its two lengths add up to 32 bits.**  `DecodeEntry`
gets the bytes from `p` to `limit`, and `ParseNextKey` those up to the restart array. -/
theorem decodeEntry_inside_iff (contents : Bytes) :
    (∀ p limit shared non_shared value_length q,
      decodeEntry ((contents.take limit).drop p) = some (shared, non_shared, value_length, q) →
        q <:+ (contents.take limit).drop p ∧
        (non_shared + value_length < 2 ^ 32 → non_shared + value_length ≤ q.length) ∧
        (contents.length < 2 ^ 32 →
          (non_shared + value_length ≤ q.length ↔ non_shared + value_length < 2 ^ 32))) ∧
    ∀ it : Block.Iter, it.data = contents →
      it.restarts = (Block.new contents).restart_offset → ∀ it', it.parseNextKey = (it', true) →
        ∃ shared non_shared value_length q,
          decodeEntry ((contents.take it.restarts).drop it.nextEntryOffset) =
            some (shared, non_shared, value_length, q) ∧
          it'.key = it.key.take shared ++ q.take non_shared ∧
          it'.value_offset = it.restarts - q.length + non_shared ∧
          it'.value_length = value_length ∧
          (it'.value_offset + it'.value_length ≤ it.restarts ↔
            non_shared + value_length < 2 ^ 32) := by
  refine ⟨fun p limit shared non_shared value_length q h => ?_,
    fun it hdata hrestarts it' h => ?_⟩
  · obtain ⟨hsuffix, -, hchecked⟩ := decodeEntry_spec h
    refine ⟨hsuffix, fun hlt => ?_, fun hlength => decodeEntry_le_iff h ?_⟩
    · rw [Nat.mod_eq_of_lt hlt] at hchecked
      exact hchecked.trans (Nat.mod_le _ _)
    · rw [length_drop, length_take]
      omega
  · subst hdata
    have hlt : it.restarts < 2 ^ 32 := by
      rw [hrestarts, Block.new]
      simp only
      split_ifs
      · exact Nat.two_pow_pos 32
      · exact Nat.two_pow_pos 32
      · exact Nat.mod_lt _ (Nat.two_pow_pos 32)
    rw [Block.Iter.parseNextKey] at h
    simp only at h
    split at h
    · cases h
    · split at h
      · cases h
      · rename_i shared non_shared value_length q heq
        split_ifs at h
        · cases h
        cases h
        refine ⟨shared, non_shared, value_length, q, heq, rfl, rfl, rfl, ?_⟩
        have hle : ((it.data.take it.restarts).drop it.nextEntryOffset).length ≤ it.restarts := by
          rw [length_drop, length_take]
          omega
        have hq := (decodeEntry_spec heq).1.length_le
        rw [← decodeEntry_le_iff heq (by omega)]
        simp only
        omega

theorem decodeEntry_inside_iff_two :
    let contents : Bytes := [0, 1, 1, 5, 6] ++ [0, 0, 0, 0] ++ [1, 0, 0, 0]
    let it : Block.Iter := ⟨contents, 5, 1, 5, 0, [], 0, 0, .ok⟩
    decodeEntry [0, 1, 1, 5, 6] = some (0, 1, 1, [5, 6]) ∧ 1 + 1 ≤ [5, 6].length ∧
      ∃ it' non_shared, it.parseNextKey = (it', true) ∧
        (it'.value_offset + it'.value_length ≤ 5 ↔ non_shared + it'.value_length < 2 ^ 32) := by
  intro contents it
  have hparse : it.parseNextKey = (it.parseNextKey.1, true) := Prod.ext rfl (by decide +kernel)
  obtain ⟨shared, non_shared, value_length, q, -, -, -, rfl, hinside⟩ :=
    (decodeEntry_inside_iff contents).2 it rfl (by decide +kernel) _ hparse
  exact ⟨rfl, ((decodeEntry_inside_iff contents).1 0 5 0 1 1 [5, 6]
    (by decide +kernel)).2.1 (by decide), _,
    non_shared, hparse, hinside⟩

/-- The lengths `2^32 - 1` and 2 pass the check in a block with 8 bytes of entries. -/
theorem decodeEntry_wraps :
    let contents : Bytes := [0, 255, 255, 255, 255, 15, 2, 7] ++ [0, 0, 0, 0] ++ [1, 0, 0, 0]
    let it : Block.Iter := ⟨contents, 8, 1, 8, 1, [], 0, 0, .ok⟩
    decodeEntry (contents.take 8) = some (0, 2 ^ 32 - 1, 2, [7]) ∧
      (Block.new contents).newIterator = .ok (some it) ∧
      ∃ it', (it.seekToRestartPoint 0).parseNextKey = (it', true) ∧
        it.restarts < it'.value_offset + it'.value_length :=
  ⟨by decide +kernel, rfl, _, Prod.ext rfl (by decide +kernel), by decide +kernel⟩

end Bourbon
