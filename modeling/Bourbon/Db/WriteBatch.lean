import Bourbon.Util.Coding
import Bourbon.Table.Block
import Bourbon.Db.DbImpl

/-!
# Write batches

`db/write_batch.cc`.  A batch is a string: the sequence number of its first operation, the number of
operations, and one record for each of them.

* `WriteBatch.iterate` : the operations of a batch, and the status of reading them;
* `WriteBatch.iterate_setSequence` : they do not depend on the sequence number;
* `WriteBatch.iterate_append` : the operations of two batches, one behind the other.
-/

namespace Bourbon

open List

/-- `kHeader`: a sequence number of eight bytes and a count of four. -/
def kHeader : ℕ := 12

/-- `WriteBatch`: header and records. -/
structure WriteBatch where
  rep : Bytes
  /-- There is always a header. -/
  header : kHeader ≤ rep.length

namespace WriteBatch

/-- A batch without operations. -/
def new : WriteBatch := ⟨List.replicate kHeader 0, by decide⟩

/-- The count is an `int`. -/
def count (b : WriteBatch) : ℤ :=
  let n := decodeFixed32 (b.rep.drop 8)
  if n < 2 ^ 31 then n else n - 2 ^ 32

theorem header_setCount (b : WriteBatch) (n : ℕ) :
    kHeader ≤ (b.rep.take 8 ++ encodeFixed32 n ++ b.rep.drop kHeader).length := by
  have := b.header
  simp only [length_append, length_take, length_drop, encodeFixed32,
    length_encodeFixed, kHeader] at *
  omega

/-- `WriteBatchInternal::SetCount`. -/
def setCount (b : WriteBatch) (n : ℤ) : WriteBatch :=
  ⟨b.rep.take 8 ++ encodeFixed32 (n % 2 ^ 32).toNat ++ b.rep.drop kHeader, b.header_setCount _⟩

/-- `WriteBatchInternal::Sequence`. -/
def sequence (b : WriteBatch) : ℕ := decodeFixed64 b.rep

theorem header_setSequence (b : WriteBatch) (seq : ℕ) :
    kHeader ≤ (encodeFixed64 seq ++ b.rep.drop 8).length := by
  have := b.header
  simp only [length_append, length_drop, encodeFixed64, length_encodeFixed, kHeader] at *
  omega

/-- `WriteBatchInternal::SetSequence`. -/
def setSequence (b : WriteBatch) (seq : ℕ) : WriteBatch :=
  ⟨encodeFixed64 seq ++ b.rep.drop 8, b.header_setSequence seq⟩

/-- Append a record and count it. -/
def addRecord (b : WriteBatch) (record : Bytes) : WriteBatch :=
  ⟨(b.setCount (b.count + 1)).rep ++ record, by
    rw [length_append]
    exact (b.setCount (b.count + 1)).header.trans (Nat.le_add_right _ _)⟩

/-- `WriteBatch::Put`. -/
def put (b : WriteBatch) (key value : Bytes) : WriteBatch :=
  b.addRecord (UInt8.ofNat ValueType.value.toNat ::
    (putLengthPrefixedSlice key ++ putLengthPrefixedSlice value))

/-- `WriteBatch::Delete`. -/
def delete (b : WriteBatch) (key : Bytes) : WriteBatch :=
  b.addRecord (UInt8.ofNat ValueType.deletion.toNat :: putLengthPrefixedSlice key)

/-- `WriteBatch::Clear`. -/
def clear (_ : WriteBatch) : WriteBatch := new

/-- `WriteBatchInternal::ByteSize`. -/
def byteSize (b : WriteBatch) : ℕ := b.rep.length

/-- `WriteBatchInternal::Append`: the counts are added, and the records come behind. -/
def append (dst src : WriteBatch) : WriteBatch :=
  ⟨(dst.setCount (dst.count + src.count)).rep ++ src.rep.drop kHeader, by
    rw [length_append]
    exact (dst.setCount (dst.count + src.count)).header.trans (Nat.le_add_right _ _)⟩

/-- The loop of `Iterate` over the records; every round takes a byte or more.  The operations are
those that the handler has been called for. -/
def iterateLoop : ℕ → Bytes → Status × List (BatchOp Bytes Bytes)
  | 0, _ => (.ok, [])
  | _ + 1, [] => (.ok, [])
  | n + 1, tag :: input =>
    if tag = UInt8.ofNat ValueType.value.toNat then
      match getLengthPrefixedSlice input with
      | none => (.corruption "bad WriteBatch Put", [])
      | some (key, input) =>
        match getLengthPrefixedSlice input with
        | none => (.corruption "bad WriteBatch Put", [])
        | some (value, input) =>
          ((iterateLoop n input).1, .put key value :: (iterateLoop n input).2)
    else if tag = UInt8.ofNat ValueType.deletion.toNat then
      match getLengthPrefixedSlice input with
      | none => (.corruption "bad WriteBatch Delete", [])
      | some (key, input) => ((iterateLoop n input).1, .delete key :: (iterateLoop n input).2)
    else (.corruption "unknown WriteBatch tag", [])

/-- `WriteBatch::Iterate`. -/
def iterate (b : WriteBatch) : Status × List (BatchOp Bytes Bytes) :=
  if b.rep.length < kHeader then (.corruption "malformed WriteBatch (too small)", [])
  else
    let r := iterateLoop (b.rep.drop kHeader).length (b.rep.drop kHeader)
    if r.1 = .ok ∧ (r.2.length : ℤ) ≠ b.count then
      (.corruption "WriteBatch has wrong count", r.2)
    else r

/-- `WriteBatchInternal::InsertInto`: the status, and the entries that are added to the memtable, in
this order.  Sequence numbers are not cut to the 56 bits that the memtable has for them. -/
def insertInto (b : WriteBatch) : Status × List (Entry Bytes Bytes) :=
  (b.iterate.1, batchEntries b.sequence b.iterate.2)

theorem drop_setSequence (b : WriteBatch) (seq k : ℕ) :
    (b.setSequence seq).rep.drop (8 + k) = b.rep.drop (8 + k) := by
  have h8 : (encodeFixed64 seq).length = 8 := length_encodeFixed 8 seq
  rw [setSequence, ← drop_drop, drop_left' h8, drop_drop]

/-- **The operations do not depend on the sequence number.** -/
theorem iterate_setSequence (b : WriteBatch) (seq : ℕ) :
    (b.setSequence seq).iterate = b.iterate := by
  have hcount : (b.setSequence seq).count = b.count := by
    rw [count, count, drop_setSequence b seq 0]
  have hdrop : (b.setSequence seq).rep.drop kHeader = b.rep.drop kHeader := drop_setSequence b seq 4
  rw [iterate, iterate, if_neg (not_lt.2 b.header), if_neg (not_lt.2 (b.setSequence seq).header),
    hcount, hdrop]

theorem sequence_setSequence (b : WriteBatch) {seq : ℕ} (h : seq < 2 ^ 64) :
    (b.setSequence seq).sequence = seq :=
  decodeFixed_encodeFixed h _

variable {b : WriteBatch}

theorem count_eq (h : b.iterate.1 = .ok) : b.count = b.iterate.2.length := by
  rw [iterate, if_neg (not_lt.2 b.header)] at h ⊢
  generalize iterateLoop (b.rep.drop kHeader).length (b.rep.drop kHeader) = r at h ⊢
  dsimp only at h ⊢
  split_ifs at h ⊢ with hcount
  by_contra hne
  exact hcount ⟨h, fun heq => hne heq.symm⟩

/-! ### Batches one behind the other -/

variable {n m : ℕ} {input : Bytes}

theorem iterateLoop_congr (hn : input.length ≤ n)
    (hm : input.length ≤ m) : iterateLoop n input = iterateLoop m input := by
  induction n generalizing input m with
  | zero =>
    obtain rfl : input = [] := length_eq_zero_iff.1 (Nat.le_zero.1 hn)
    cases m <;> rfl
  | succ n ih =>
    cases input with
    | nil => cases m <;> rfl
    | cons tag input =>
      rw [length_cons] at hn hm
      obtain _ | m := m
      · exact absurd hm (Nat.not_succ_le_zero _)
      rw [iterateLoop, iterateLoop]
      cases hkey : getLengthPrefixedSlice input with
      | none => rfl
      | some p =>
        obtain ⟨key, input₁⟩ := p
        have hlength := local_getLengthPrefixedSlice.length_lt hkey
        dsimp only
        rw [ih (show input₁.length ≤ n by omega) (show input₁.length ≤ m by omega)]
        cases hval : getLengthPrefixedSlice input₁ with
        | none => rfl
        | some q =>
          obtain ⟨value, input₂⟩ := q
          have hlength₂ := local_getLengthPrefixedSlice.length_lt hval
          dsimp only
          rw [ih (show input₂.length ≤ n by omega) (show input₂.length ≤ m by omega)]

/-- **Records that can be read stay readable** in front of other ones. -/
theorem iterateLoop_append {k : ℕ} {rest : Bytes} (hn : input.length ≤ n)
    (hok : (iterateLoop n input).1 = .ok) (hm : (input ++ rest).length ≤ m)
    (hk : rest.length ≤ k) : iterateLoop m (input ++ rest) =
      ((iterateLoop k rest).1, (iterateLoop n input).2 ++ (iterateLoop k rest).2) := by
  induction n generalizing input m with
  | zero =>
    obtain rfl : input = [] := length_eq_zero_iff.1 (Nat.le_zero.1 hn)
    exact iterateLoop_congr hm hk
  | succ n ih =>
    cases input with
    | nil => exact iterateLoop_congr hm hk
    | cons tag input =>
      rw [length_cons] at hn
      rw [cons_append, length_cons, length_append] at hm
      obtain _ | m := m
      · exact absurd hm (Nat.not_succ_le_zero _)
      -- the rest of the input is shorter
      have hnext : ∀ input' : Bytes, input'.length < input.length →
          (iterateLoop n input').1 = .ok → iterateLoop m (input' ++ rest) =
            ((iterateLoop k rest).1, (iterateLoop n input').2 ++ (iterateLoop k rest).2) := by
        intro input' hlt hok'
        refine ih (by omega) hok' ?_
        rw [length_append]
        omega
      rw [iterateLoop] at hok
      rw [cons_append, iterateLoop, iterateLoop]
      by_cases hvalue : tag = UInt8.ofNat ValueType.value.toNat
      · rw [if_pos hvalue] at hok ⊢
        rw [if_pos hvalue]
        cases hkey : getLengthPrefixedSlice input with
        | none =>
          simp only [hkey] at hok
          cases hok
        | some p =>
          obtain ⟨key, input₁⟩ := p
          simp only [hkey] at hok
          rw [local_getLengthPrefixedSlice.append hkey rest]
          dsimp only
          cases hval : getLengthPrefixedSlice input₁ with
          | none =>
            simp only [hval] at hok
            cases hok
          | some q =>
            obtain ⟨value, input₂⟩ := q
            simp only [hval] at hok
            rw [local_getLengthPrefixedSlice.append hval rest]
            dsimp only
            rw [hnext input₂ ((local_getLengthPrefixedSlice.length_lt hval).trans
              (local_getLengthPrefixedSlice.length_lt hkey)) hok]
            rfl
      · rw [if_neg hvalue] at hok ⊢
        rw [if_neg hvalue]
        by_cases hdeletion : tag = UInt8.ofNat ValueType.deletion.toNat
        · rw [if_pos hdeletion] at hok ⊢
          rw [if_pos hdeletion]
          cases hkey : getLengthPrefixedSlice input with
          | none =>
            simp only [hkey] at hok
            cases hok
          | some p =>
            obtain ⟨key, input₁⟩ := p
            simp only [hkey] at hok
            rw [local_getLengthPrefixedSlice.append hkey rest]
            dsimp only
            rw [hnext input₁ (local_getLengthPrefixedSlice.length_lt hkey) hok]
            rfl
        · rw [if_neg hdeletion] at hok
          cases hok

theorem length_iterateLoop_le (n : ℕ) (input : Bytes) :
    (iterateLoop n input).2.length ≤ input.length := by
  induction n generalizing input with
  | zero => exact Nat.zero_le _
  | succ n ih =>
    cases input with
    | nil => exact Nat.zero_le _
    | cons tag input =>
      rw [iterateLoop, length_cons]
      cases hkey : getLengthPrefixedSlice input with
      | none => split_ifs <;> exact Nat.zero_le _
      | some p =>
        obtain ⟨key, input₁⟩ := p
        have hlength := local_getLengthPrefixedSlice.length_lt hkey
        have hih := ih input₁
        dsimp only
        split_ifs
        · cases hval : getLengthPrefixedSlice input₁ with
          | none => exact Nat.zero_le _
          | some q =>
            obtain ⟨value, input₂⟩ := q
            have hlength₂ := local_getLengthPrefixedSlice.length_lt hval
            have hih₂ := ih input₂
            dsimp only
            rw [length_cons]
            omega
        · rw [length_cons]
          omega
        · exact Nat.zero_le _

variable {ops : List (BatchOp Bytes Bytes)}

theorem iterate_eq_ok :
    b.iterate = (.ok, ops) ↔
      iterateLoop (b.rep.drop kHeader).length (b.rep.drop kHeader) = (.ok, ops) ∧
        b.count = ops.length := by
  rw [iterate, if_neg (not_lt.2 b.header)]
  generalize iterateLoop (b.rep.drop kHeader).length (b.rep.drop kHeader) = r
  dsimp only
  constructor
  · intro h
    split_ifs at h with hcount
    · cases h
    · refine ⟨h, ?_⟩
      rw [h] at hcount
      by_contra hne
      exact hcount ⟨rfl, fun heq => hne heq.symm⟩
  · rintro ⟨rfl, hcount⟩
    rw [if_neg fun h => h.2 hcount.symm]

theorem count_new : new.count = 0 := by decide

theorem iterate_new : new.iterate = (.ok, []) := iterate_eq_ok.2 ⟨rfl, count_new⟩

theorem count_setCount (b : WriteBatch) (hn : n < 2 ^ 31) (rest : Bytes) :
    ∀ h, count ⟨(b.setCount n).rep ++ rest, h⟩ = n := by
  intro h
  have h8 : (b.rep.take 8).length = 8 :=
    length_take_of_le (le_trans (by decide) b.header)
  have hdecode : decodeFixed32 (((b.setCount n).rep ++ rest).drop 8) = n := by
    have hmod : ((n : ℤ) % 2 ^ 32).toNat = n := by omega
    show decodeFixed32 ((b.rep.take 8 ++ encodeFixed32 ((n : ℤ) % 2 ^ 32).toNat ++
      b.rep.drop kHeader ++ rest).drop 8) = n
    rw [hmod, append_assoc, append_assoc, drop_left' h8]
    exact decodeFixed_encodeFixed (hn.trans (by decide)) _
  unfold count
  rw [hdecode]
  exact if_pos hn

theorem drop_setCount (b : WriteBatch) (n : ℤ) (rest : Bytes) :
    ((b.setCount n).rep ++ rest).drop kHeader = b.rep.drop kHeader ++ rest := by
  have hlength : (b.rep.take 8 ++ encodeFixed32 (n % 2 ^ 32).toNat).length = kHeader := by
    rw [length_append, encodeFixed32, length_encodeFixed,
      length_take_of_le (le_trans (by decide) b.header)]
    rfl
  rw [setCount, append_assoc, drop_left' hlength]

/-- **`Append` puts the operations behind**, if their number is an `int`. -/
theorem iterate_append {dst src : WriteBatch} {ops' : List (BatchOp Bytes Bytes)}
    (hdst : dst.iterate = (.ok, ops)) (hsrc : src.iterate = (.ok, ops'))
    (hcount : ops.length + ops'.length < 2 ^ 31) :
    (dst.append src).iterate = (.ok, ops ++ ops') := by
  obtain ⟨hdst, hdst'⟩ := iterate_eq_ok.1 hdst
  obtain ⟨hsrc, hsrc'⟩ := iterate_eq_ok.1 hsrc
  have hsum : dst.count + src.count = ((ops ++ ops').length : ℕ) := by
    rw [hdst', hsrc', length_append, Nat.cast_add]
  refine iterate_eq_ok.2 ⟨?_, ?_⟩
  · rw [append, drop_setCount, iterateLoop_append le_rfl (by rw [hdst]) le_rfl le_rfl, hdst, hsrc]
  · simp only [append, hsum]
    exact dst.count_setCount (by rwa [length_append]) _ _

theorem length_iterate_le (b : WriteBatch) : b.iterate.2.length + kHeader ≤ b.byteSize := by
  have hrep := b.header
  have hle := length_iterateLoop_le (b.rep.drop kHeader).length (b.rep.drop kHeader)
  have hdrop : (b.rep.drop kHeader).length = b.rep.length - kHeader := length_drop
  rw [iterate, if_neg (not_lt.2 b.header), byteSize]
  generalize iterateLoop (b.rep.drop kHeader).length (b.rep.drop kHeader) = r at hle ⊢
  dsimp only
  split_ifs
  · exact (show r.2.length + kHeader ≤ b.rep.length by omega)
  · omega

theorem iterate_addRecord {record : Bytes}
    {op : BatchOp Bytes Bytes} (hb : b.iterate = (.ok, ops))
    (hrecord : iterateLoop record.length record = (.ok, [op]))
    (hcount : ops.length + 1 < 2 ^ 31) : (b.addRecord record).iterate = (.ok, ops ++ [op]) := by
  obtain ⟨hb, hb'⟩ := iterate_eq_ok.1 hb
  have hsum : b.count + 1 = ((ops ++ [op]).length : ℕ) := by
    rw [hb', length_append, Nat.cast_add]
    rfl
  refine iterate_eq_ok.2 ⟨?_, ?_⟩
  · rw [addRecord, drop_setCount, iterateLoop_append le_rfl (by rw [hb]) le_rfl le_rfl, hb, hrecord]
  · simp only [addRecord, hsum]
    exact b.count_setCount (by rwa [length_append]) _ _

variable {key : Bytes}

/-- **`Put` adds an operation**, unless a length or the count is too large for its type. -/
theorem iterate_put {value : Bytes}
    (hb : b.iterate = (.ok, ops)) (hkey : key.length < 2 ^ 32) (hvalue : value.length < 2 ^ 32)
    (hcount : ops.length + 1 < 2 ^ 31) :
    (b.put key value).iterate = (.ok, ops ++ [.put key value]) := by
  refine iterate_addRecord hb ?_ hcount
  rw [length_cons, iterateLoop, if_pos rfl,
    getLengthPrefixedSlice_putLengthPrefixedSlice hkey]
  have hlast := getLengthPrefixedSlice_putLengthPrefixedSlice hvalue []
  rw [append_nil] at hlast
  simp only [hlast]
  cases (putLengthPrefixedSlice key ++ putLengthPrefixedSlice value).length <;> rfl

/-- **`Delete` adds an operation**, with the same exceptions. -/
theorem iterate_delete
    (hb : b.iterate = (.ok, ops)) (hkey : key.length < 2 ^ 32)
    (hcount : ops.length + 1 < 2 ^ 31) :
    (b.delete key).iterate = (.ok, ops ++ [.delete key]) := by
  refine iterate_addRecord hb ?_ hcount
  have hlast := getLengthPrefixedSlice_putLengthPrefixedSlice hkey []
  rw [append_nil] at hlast
  rw [length_cons, iterateLoop, if_neg (by decide), if_pos rfl]
  simp only [hlast]
  cases (putLengthPrefixedSlice key).length <;> rfl

/-! ### Batches that are built by calls -/

/-- The batches that calls of `Put`, `Delete` and `Append` build, with the operations in the order
of the calls. -/
inductive Built : WriteBatch → List (BatchOp Bytes Bytes) → Prop
  | new : Built new []
  | put {b : WriteBatch} {ops : List (BatchOp Bytes Bytes)} (h : Built b ops) (key value : Bytes) :
    Built (b.put key value) (ops ++ [.put key value])
  | delete {b : WriteBatch} {ops : List (BatchOp Bytes Bytes)} (h : Built b ops) (key : Bytes) :
    Built (b.delete key) (ops ++ [.delete key])
  | append {b b' : WriteBatch} {ops ops' : List (BatchOp Bytes Bytes)} (h : Built b ops)
    (h' : Built b' ops') : Built (b.append b') (ops ++ ops')

/-- The strings of an operation have lengths of 32 bits. -/
def ShortOp : BatchOp Bytes Bytes → Prop
  | .put key value => key.length < 2 ^ 32 ∧ value.length < 2 ^ 32
  | .delete key => key.length < 2 ^ 32

/-- What the memtable gets for an operation. -/
def opEntry (sequence : ℕ) : BatchOp Bytes Bytes → Entry Bytes Bytes
  | .put key value => (⟨key, sequence, .value⟩, value)
  | .delete key => (⟨key, sequence, .deletion⟩, [])

theorem getElem?_batchEntries (sequence : ℕ) (ops : List (BatchOp Bytes Bytes)) (i : ℕ) :
    (batchEntries sequence ops)[i]? = ops[i]?.map (opEntry (sequence + i)) := by
  induction ops generalizing sequence i with
  | nil => rfl
  | cons op ops ih =>
    cases i with
    | zero => cases op <;> rfl
    | succ i =>
      have hnext : sequence + (i + 1) = sequence + 1 + i := by omega
      rw [List.getElem?_cons_succ, hnext, ← ih]
      cases op <;> rfl

theorem Built.iterate (h : Built b ops)
    (hshort : ∀ op ∈ ops, ShortOp op) (hcount : ops.length < 2 ^ 31) :
    b.iterate = (.ok, ops) := by
  induction h with
  | new => exact iterate_new
  | put _ key value ih =>
    rw [forall_mem_append, forall_mem_singleton] at hshort
    rw [length_append, length_singleton] at hcount
    exact iterate_put (ih hshort.1 (by omega)) hshort.2.1 hshort.2.2 hcount
  | delete _ key ih =>
    rw [forall_mem_append, forall_mem_singleton] at hshort
    rw [length_append, length_singleton] at hcount
    exact iterate_delete (ih hshort.1 (by omega)) hshort.2 hcount
  | append _ _ ih ih' =>
    rw [forall_mem_append] at hshort
    rw [length_append] at hcount
    exact iterate_append (ih hshort.1 (by omega)) (ih' hshort.2 (by omega)) hcount

/-- **A batch replays its operations**: `Iterate` and `Count` find exactly those of the calls, and
`InsertInto` numbers them from the sequence number of the batch on, as long as the numbers have 56
bits. -/
theorem built_replays (h : Built b ops)
    (hshort : ∀ op ∈ ops, ShortOp op) (hcount : ops.length < 2 ^ 31) :
    b.iterate = (.ok, ops) ∧ b.count = ops.length ∧
      ∀ q, q + ops.length ≤ 2 ^ 56 →
        (b.setSequence q).insertInto.1 = .ok ∧
        ∀ i, (b.setSequence q).insertInto.2[i]? = ops[i]?.map (opEntry (q + i)) := by
  have hiterate := h.iterate hshort hcount
  refine ⟨hiterate, (iterate_eq_ok.1 hiterate).2, fun q hq => ?_⟩
  rw [insertInto, iterate_setSequence, sequence_setSequence b (by omega), hiterate]
  exact ⟨rfl, getElem?_batchEntries q ops⟩

theorem built_replays_append :
    let b := (new.put [1] [2]).append (new.delete [1])
    b.iterate = (.ok, [.put [1] [2], .delete [1]]) ∧ b.count = 2 ∧
      (b.setSequence 7).insertInto.2[1]? = some (⟨[1], 8, .deletion⟩, []) := by
  have hbuilt := (Built.new.put [1] [2]).append (Built.new.delete [1])
  obtain ⟨hiterate, hcount, hinsert⟩ := built_replays hbuilt (by simp [ShortOp]) (by decide)
  exact ⟨hiterate, hcount, (hinsert 7 (by decide)).2 1⟩

theorem iterate_snd (b : WriteBatch) :
    b.iterate.2 = (iterateLoop (b.rep.drop kHeader).length (b.rep.drop kHeader)).2 := by
  rw [iterate, if_neg (not_lt.2 b.header)]
  dsimp only
  split_ifs <;> rfl

/-- A key of 4 GiB is read back as the empty one. -/
theorem iterate_put_long (hlength : (0 :: key).length = 2 ^ 32) :
    (new.put (0 :: key) []).iterate.2.head? = some (.put [] []) := by
  have hprefix : putLengthPrefixedSlice (0 :: key) = 0 :: 0 :: key := by
    rw [putLengthPrefixedSlice, hlength]
    rfl
  have hrep : (new.put (0 :: key) []).rep.drop kHeader =
      1 :: 0 :: 0 :: (key ++ putLengthPrefixedSlice []) := by
    rw [put, addRecord, drop_setCount, hprefix]
    rfl
  have hslice : ∀ rest : Bytes, getLengthPrefixedSlice (0 :: rest) = some ([], rest) := fun rest =>
    getLengthPrefixedSlice_putLengthPrefixedSlice (show ([] : Bytes).length < 2 ^ 32 by decide) rest
  obtain ⟨ops, hops⟩ : ∃ ops, (iterateLoop ((new.put (0 :: key) []).rep.drop kHeader).length
      ((new.put (0 :: key) []).rep.drop kHeader)).2 = .put [] [] :: ops := by
    rw [hrep, length_cons, iterateLoop, if_pos (by decide), hslice]
    simp only [hslice]
    exact ⟨_, rfl⟩
  rw [iterate_snd, hops]
  rfl

theorem long_key_lost :
    Built (new.put (List.replicate (2 ^ 32) 0) []) [.put (List.replicate (2 ^ 32) 0) []] ∧
      (new.put (List.replicate (2 ^ 32) 0) []).iterate ≠
        (.ok, [.put (List.replicate (2 ^ 32) 0) []]) := by
  refine ⟨Built.new.put _ _, ?_⟩
  obtain ⟨key, hkey⟩ : ∃ key : Bytes, List.replicate (2 ^ 32) 0 = 0 :: key :=
    ⟨_, replicate_succ⟩
  have hlength := congrArg List.length hkey
  rw [length_replicate] at hlength
  rw [hkey]
  intro heq
  have hlost := iterate_put_long hlength.symm
  rw [heq] at hlost
  cases hlost

end WriteBatch

end Bourbon
