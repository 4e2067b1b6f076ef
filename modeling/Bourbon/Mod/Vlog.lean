import Bourbon.Util.Coding

/-!
# The value log

`VLog` appends records to a write buffer that goes to the end of the log file when it is full, on
`Sync`, and when the log is closed.  A record is found again by the address of its value, which
counts from the beginning of the file through the buffer.

* `Holds` : the bytes of a value are at its address, all of them in the file or all in the buffer;
* `Holds.run` : no later operation moves them;
* `readRecord_of_addRecord` : so every later read returns the value.

The size of a value is passed in 32 bits, so longer values do not come back
(`readRecord_value_too_long`).
-/

namespace Bourbon

open List

/-- The value log: the file, its size as the writer counts it, and the write buffer. -/
structure VLog where
  file : Bytes
  vlog_size : ℕ
  buffer : Bytes

namespace VLog

/-- `buffer_size_max`. -/
def bufferSizeMax : ℕ := 300 * 1024

/-- `VLog::VLog`: the log file is opened for appending. -/
def new (file : Bytes) : VLog := ⟨file, file.length, []⟩

/-- `VLog::Flush`. -/
def flush (v : VLog) : VLog :=
  if v.buffer = [] then v else ⟨v.file ++ v.buffer, v.vlog_size + v.buffer.length, []⟩

/-- `VLog::AddRecord`: the address of the value, and the log. -/
def addRecord (v : VLog) (key value : Bytes) : ℕ × VLog :=
  let buffer := v.buffer ++ (encodeVarint32 (key.length % 2 ^ 32) ++ key) ++
    encodeVarint32 (value.length % 2 ^ 32)
  let result := v.vlog_size + buffer.length
  let v := { v with buffer := buffer ++ value }
  (result, if v.buffer.length ≥ bufferSizeMax then v.flush else v)

/-- `VLog::ReadRecord`; `size` has 32 bits.  `none` is a read behind the end of the buffer. -/
def readRecord (v : VLog) (address size : ℕ) : Option Bytes :=
  let size := size % 2 ^ 32
  if v.vlog_size ≤ address then
    if address - v.vlog_size + size ≤ v.buffer.length then
      some ((v.buffer.drop (address - v.vlog_size)).take size)
    else none
  else some ((v.file.drop address).take size)

/-- What `DBImpl::Get` makes of a stored value: the bytes at the address that it holds.  `none` is a
read behind the end of the stored value or of the buffer. -/
def readValue (v : VLog) (value : Bytes) : Option Bytes :=
  if value.length < 12 then none
  else v.readRecord (decodeFixed64 value) (decodeFixed32 (value.drop 8))

/-- The answer of `DBImpl::Get` after a search: `some none` is `NotFound`. -/
def resolve (v : VLog) : Option Bytes → Option (Option Bytes)
  | none => some none
  | some value => (v.readValue value).map some

/-- `VLog::Sync`. -/
def sync (v : VLog) : VLog := v.flush

/-- `VLog::~VLog` and a new `VLog` on the same file. -/
def reopen (v : VLog) : VLog := new v.flush.file

end VLog

/-- The operations that change the log. -/
inductive VLogOp where
  | addRecord (key value : Bytes)
  | sync
  | reopen

/-- One operation. -/
def VLog.step (v : VLog) : VLogOp → VLog
  | .addRecord key value => (v.addRecord key value).2
  | .sync => v.sync
  | .reopen => v.reopen

/-- Perform the operations in order. -/
def VLog.run (v : VLog) (ops : List VLogOp) : VLog := ops.foldl VLog.step v

namespace VLog

/-- Everything that has been added. -/
def contents (v : VLog) : Bytes := v.file ++ v.buffer

/-- The size that the log keeps is the size of the file. -/
def Sized (v : VLog) : Prop := v.vlog_size = v.file.length

/-- The value is at the address, on one side of the end of the file. -/
structure Holds (v : VLog) (address : ℕ) (value : Bytes) : Prop where
  sized : v.Sized
  bytes : ∃ rest, v.contents.drop address = value ++ rest
  inside : address + value.length ≤ v.contents.length
  side : address + value.length ≤ v.file.length ∨ v.file.length ≤ address

variable {v : VLog}

@[simp] theorem contents_flush (v : VLog) : v.flush.contents = v.contents := by
  rw [flush]
  split_ifs with hnil
  · rfl
  · exact append_nil _

theorem file_flush (v : VLog) : v.flush.file = v.contents := by
  rw [flush, contents]
  split_ifs with hnil
  · rw [hnil, append_nil]
  · rfl

theorem Sized.flush (h : v.Sized) : v.flush.Sized := by
  rw [VLog.flush]
  split_ifs with hnil
  · exact h
  · change v.vlog_size + v.buffer.length = (v.file ++ v.buffer).length
    rw [length_append, h]

theorem sized_new (file : Bytes) : (new file).Sized := rfl

/-- **What `AddRecord` does**: the record goes to the end, and its address is where the value
starts. -/
theorem addRecord_spec (h : v.Sized) (key value : Bytes) :
    ∃ head, (v.addRecord key value).2.contents = v.contents ++ head ++ value ∧
      (v.addRecord key value).1 = (v.contents ++ head).length ∧
      (v.addRecord key value).2.Sized ∧
      ((v.addRecord key value).2.file = v.file ∨
        (v.addRecord key value).2.file = (v.addRecord key value).2.contents) := by
  refine ⟨(encodeVarint32 (key.length % 2 ^ 32) ++ key) ++ encodeVarint32 (value.length % 2 ^ 32),
    ?_, ?_, ?_, ?_⟩ <;> simp only [addRecord]
  · split_ifs
    · rw [contents_flush]
      simp only [contents, append_assoc]
    · simp only [contents, append_assoc]
  · rw [h, contents]
    simp only [length_append]
    ring
  · split_ifs
    · exact Sized.flush h
    · exact h
  · split_ifs
    · exact Or.inr ((file_flush _).trans (contents_flush _).symm)
    · exact Or.inl rfl

theorem Sized.step (h : v.Sized) (op : VLogOp) : (v.step op).Sized := by
  cases op with
  | addRecord key value =>
    obtain ⟨head, -, -, hsized, -⟩ := addRecord_spec h key value
    exact hsized
  | sync => exact h.flush
  | reopen => exact sized_new _

theorem Sized.run (h : v.Sized) (ops : List VLogOp) : (v.run ops).Sized := by
  induction ops generalizing v with
  | nil => exact h
  | cons op ops ih => exact ih (h.step op)

variable {address : ℕ} {value : Bytes}

/-- Growing at the end, with the file as it was or with everything in the file, keeps a value. -/
theorem Holds.grow (h : v.Holds address value) {v' : VLog}
    (hsized : v'.Sized) {more : Bytes} (hcontents : v'.contents = v.contents ++ more)
    (hfile : v'.file = v.file ∨ v'.file = v'.contents) : v'.Holds address value := by
  obtain ⟨rest, hrest⟩ := h.bytes
  have hinside : address + value.length ≤ v'.contents.length := by
    rw [hcontents, length_append]
    exact h.inside.trans (Nat.le_add_right _ _)
  refine ⟨hsized, ⟨rest ++ more, ?_⟩, hinside, ?_⟩
  · rw [hcontents, drop_append_of_le_length ((Nat.le_add_right _ _).trans h.inside), hrest,
      append_assoc]
  · rcases hfile with heq | heq
    · rw [heq]
      exact h.side
    · rw [heq]
      exact Or.inl hinside

/-- **One operation** keeps a value at its address. -/
theorem Holds.step (h : v.Holds address value) (op : VLogOp) :
    (v.step op).Holds address value := by
  cases op with
  | addRecord key val =>
    obtain ⟨head, hcontents, -, hsized, hfile⟩ := addRecord_spec h.sized key val
    exact h.grow hsized (hcontents.trans (append_assoc _ _ _)) hfile
  | sync =>
    exact h.grow h.sized.flush ((contents_flush v).trans (append_nil _).symm)
      (Or.inr ((file_flush v).trans (contents_flush v).symm))
  | reopen =>
    have hcontents : v.flush.file ++ [] = v.contents ++ [] := by rw [file_flush]
    exact h.grow (sized_new _) hcontents (Or.inr (append_nil _).symm)

/-- **No later operation** moves a value. -/
theorem Holds.run (h : v.Holds address value) (ops : List VLogOp) :
    (v.run ops).Holds address value := by
  induction ops generalizing v with
  | nil => exact h
  | cons op ops ih => exact ih (h.step op)

theorem holds_addRecord (h : v.Sized) (key value : Bytes) :
    (v.addRecord key value).2.Holds (v.addRecord key value).1 value := by
  obtain ⟨head, hcontents, haddress, hsized, hfile⟩ := addRecord_spec h key value
  have hinside : (v.addRecord key value).1 + value.length ≤
      (v.addRecord key value).2.contents.length := by
    rw [hcontents, haddress]
    exact length_append.ge
  refine ⟨hsized, ⟨[], ?_⟩, hinside, ?_⟩
  · rw [hcontents, haddress, drop_left, append_nil]
  · rcases hfile with heq | heq
    · -- the value is behind the old end of the file
      right
      rw [heq, haddress, contents]
      simp only [length_append]
      omega
    · rw [heq]
      exact Or.inl hinside

/-- **A value is read back from its address.** -/
theorem Holds.readRecord_eq (h : v.Holds address value)
    (hlt : value.length < 2 ^ 32) : v.readRecord address value.length = some value := by
  obtain ⟨rest, hrest⟩ := h.bytes
  have hsized : v.vlog_size = v.file.length := h.sized
  have hinside := h.inside
  rw [contents, length_append] at hinside
  rw [readRecord, Nat.mod_eq_of_lt hlt]
  simp only [hsized]
  by_cases hle : v.file.length ≤ address
  · -- in the buffer
    rw [if_pos hle, if_pos (by omega)]
    rw [contents, drop_append, drop_of_length_le hle, nil_append] at hrest
    rw [hrest, take_left]
  · -- in the file
    rw [if_neg hle]
    have hfile : address + value.length ≤ v.file.length := h.side.resolve_right hle
    rw [contents, drop_append_of_le_length (by omega)] at hrest
    have hlen : value.length ≤ (v.file.drop address).length := by
      rw [length_drop]
      omega
    have htake : (v.file.drop address ++ v.buffer).take value.length =
        (v.file.drop address).take value.length := take_append_of_le_length hlen
    rw [← htake, hrest, take_left]

/-- **Addresses stay valid**: whatever was added before and happens afterwards, the address of a
record leads to its value. -/
theorem readRecord_of_addRecord (file : Bytes) (before after : List VLogOp) (key value : Bytes)
    (hlt : value.length < 2 ^ 32) :
    ((((new file).run before).addRecord key value).2.run after).readRecord
      (((new file).run before).addRecord key value).1 value.length = some value :=
  ((holds_addRecord ((sized_new file).run before) key value).run after).readRecord_eq hlt

/-- A log with an old record, a sync and a reopening. -/
theorem readRecord_of_addRecord_reopened :
    ([1, 2] : Bytes).length < 2 ^ 32 ∧
      ((((new [7, 7, 7]).run [.addRecord [5] [6]]).addRecord [9] [1, 2]).2.run
        [.sync, .addRecord [8] [], .reopen]).readRecord
          (((new [7, 7, 7]).run [.addRecord [5] [6]]).addRecord [9] [1, 2]).1
          ([1, 2] : Bytes).length = some [1, 2] :=
  ⟨by decide, readRecord_of_addRecord [7, 7, 7] [.addRecord [5] [6]]
    [.sync, .addRecord [8] [], .reopen] [9] [1, 2] (by decide)⟩

theorem length_readRecord_le {size : ℕ}
    (h : v.readRecord address size = some value) : value.length ≤ size % 2 ^ 32 := by
  simp only [readRecord] at h
  split_ifs at h
  · rw [← Option.some.inj h, length_take]
    exact Nat.min_le_left _ _
  · rw [← Option.some.inj h, length_take]
    exact Nat.min_le_left _ _

/-- **A value of 4 GiB does not come back.** -/
theorem readRecord_value_too_long :
    ((new []).addRecord [] longValue).2.readRecord ((new []).addRecord [] longValue).1
      longValue.length ≠ some longValue := by
  intro h
  have hle := length_readRecord_le h
  rw [longValue, length_replicate, Nat.mod_self] at hle
  omega

end VLog

end Bourbon
