import Mathlib.Data.List.Sort
import Bourbon.Mod.Vlog
import Bourbon.Table.Table

/-!
# What the database writes

With the value log in use (`MOD >= 7`), `Put` appends the value to the log and stores its address
and size, twelve bytes, under the key; `Delete` stores an empty value.  The memtable keeps the
entries in key order until a flush writes them to a table file.

* `written_flushes` : in every file flushed, an entry has a key of the common width and a value of
  twelve bytes or none, as its type says;
* `Written.of_subset` : the files a compaction makes from such files are of the same kind.
-/

namespace Bourbon

/-- A call of a client. -/
inductive WriteOp where
  | put (key val : Bytes)
  | delete (key : Bytes)

/-- The key of an operation. -/
def WriteOp.key : WriteOp → Bytes
  | .put key _ => key
  | .delete key => key

/-- The state that writes change.  The memtable is the list of its entries in iteration order. -/
structure WriteState where
  vlog : VLog
  last_sequence : ℕ
  mem : List (InternalKey Bytes × Bytes)

namespace WriteState

/-- `MemTable::Add`. -/
def add (st : WriteState) (type : ValueType) (key value : Bytes) : WriteState :=
  { st with
    last_sequence := st.last_sequence + 1
    mem := st.mem.orderedInsert (fun a b => a.1 ≤ b.1)
      (⟨key, st.last_sequence + 1, type⟩, value) }

/-- `DBImpl::Put` and `DBImpl::Delete`, with the value log in use. -/
def write (st : WriteState) : WriteOp → WriteState
  | .put key val =>
    let (value_address, vlog) := st.vlog.addRecord key val
    let buffer := encodeFixed64 value_address ++ encodeFixed32 val.length
    { st with vlog := vlog }.add .value key buffer
  | .delete key => st.add .deletion key []

/-- Perform the operations, with a flush after each of the lists: the entries of the files.  An
empty memtable makes no file. -/
def flushes : WriteState → List (List WriteOp) → List (List (InternalKey Bytes × Bytes))
  | _, [] => []
  | st, ops :: rest =>
    let st := ops.foldl write st
    let files := flushes { st with mem := [] } rest
    if st.mem = [] then files else st.mem :: files

end WriteState

/-- The entries of a table file that the database writes for keys of width `w`. -/
structure Written (w : ℕ) (entries : List (InternalKey Bytes × Bytes)) : Prop where
  ne_nil : entries ≠ []
  key : ∀ e ∈ entries, e.1.user_key.length = w
  value : ∀ e ∈ entries, e.2.length = if e.1.type = .value then 12 else 0

theorem Written.of_subset {w : ℕ} {files : List (List (InternalKey Bytes × Bytes))}
    {entries : List (InternalKey Bytes × Bytes)} (h : ∀ es ∈ files, Written w es)
    (hne : entries ≠ []) (hsub : ∀ e ∈ entries, ∃ es ∈ files, e ∈ es) : Written w entries := by
  refine ⟨hne, fun e he => ?_, fun e he => ?_⟩
  · obtain ⟨es, hes, hmem⟩ := hsub e he
    exact (h es hes).key e hmem
  · obtain ⟨es, hes, hmem⟩ := hsub e he
    exact (h es hes).value e hmem

namespace WriteState

/-- The entries of the memtable are as a file may have them. -/
def MemWritten (w : ℕ) (st : WriteState) : Prop :=
  ∀ e ∈ st.mem, e.1.user_key.length = w ∧ e.2.length = if e.1.type = .value then 12 else 0

variable {w : ℕ} {st : WriteState}

theorem MemWritten.add (h : st.MemWritten w) {type : ValueType} {key value : Bytes}
    (hkey : key.length = w) (hvalue : value.length = if type = .value then 12 else 0) :
    (st.add type key value).MemWritten w := by
  intro e he
  rcases (List.mem_orderedInsert _).1 he with rfl | he
  · exact ⟨hkey, hvalue⟩
  · exact h e he

/-- **One write** keeps the memtable in shape. -/
theorem MemWritten.write (h : st.MemWritten w) {op : WriteOp} (hop : op.key.length = w) :
    (st.write op).MemWritten w := by
  cases op with
  | put key val =>
    refine MemWritten.add h hop ?_
    simp only [List.length_append, encodeFixed64, encodeFixed32, length_encodeFixed, if_true]
  | delete key => exact h.add hop rfl

theorem MemWritten.foldl (h : st.MemWritten w) {ops : List WriteOp}
    (hops : ∀ op ∈ ops, op.key.length = w) : (ops.foldl WriteState.write st).MemWritten w := by
  induction ops generalizing st with
  | nil => exact h
  | cons op ops ih =>
    exact ih (h.write (hops op List.mem_cons_self))
      fun op' hop' => hops op' (List.mem_cons_of_mem op hop')

/-- **Every flushed file is written in this way**, wherever the flush points are. -/
theorem written_flushes (h : st.MemWritten w) {runs : List (List WriteOp)}
    (hruns : ∀ ops ∈ runs, ∀ op ∈ ops, op.key.length = w) :
    ∀ es ∈ st.flushes runs, Written w es := by
  induction runs generalizing st with
  | nil => intro es hes; cases hes
  | cons ops runs ih =>
    have hmem := h.foldl (hruns ops List.mem_cons_self)
    have hempty : MemWritten w { ops.foldl WriteState.write st with mem := [] } :=
      fun e he => by cases he
    have hrest := ih hempty fun ops' hops' => hruns ops' (List.mem_cons_of_mem ops hops')
    intro es hes
    rw [flushes] at hes
    by_cases hnil : (ops.foldl WriteState.write st).mem = []
    · rw [if_pos hnil] at hes
      exact hrest es hes
    · rw [if_neg hnil] at hes
      rcases List.mem_cons.1 hes with rfl | hes
      · exact ⟨hnil, fun e he => (hmem e he).1, fun e he => (hmem e he).2⟩
      · exact hrest es hes

end WriteState

end Bourbon
