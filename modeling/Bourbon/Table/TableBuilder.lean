import Bourbon.Table.Format

/-!
# Building tables

`table/table_builder.cc`, without compression and without a filter policy: entries are collected
in a data block, which is written when its size reaches `block_size`.  For every data block the
index block gets an entry with the last key of the block and its handle.  A table file is the data
blocks, an empty metaindex block, the index block and the footer.

* `tableBytes` : the file as a function of the entries of each block;
* `Chunking` : how the entries are divided into blocks;
* `build_eq` : what the builder writes is `tableBytes` of a chunking of the entries.
-/

namespace Bourbon

open List

/-- The options that table files depend on. -/
structure Options where
  block_size : ℕ
  block_restart_interval : ℕ

/-- `TableBuilder::Rep`. -/
structure TableBuilder where
  /-- The bytes appended to the file. -/
  file : Bytes
  offset : ℕ
  data_block : BlockBuilder
  index_block : BlockBuilder
  last_key : Bytes
  num_entries : ℕ
  /-- The index entry of the last block is still to be added. -/
  pending_index_entry : Bool
  pending_handle : BlockHandle

namespace TableBuilder

variable (crc : Bytes → UInt32) (opts : Options)

/-- A builder for a new file. -/
def new : TableBuilder := ⟨[], 0, .new, .new, [], 0, false, ⟨0, 0⟩⟩

/-- `WriteRawBlock` without compression. -/
def writeRawBlock (r : TableBuilder) (block_contents : Bytes) : TableBuilder × BlockHandle :=
  ({ r with
    file := r.file ++ storedBlock crc block_contents
    offset := r.offset + block_contents.length + kBlockTrailerSize },
    ⟨r.offset, block_contents.length⟩)

/-- `TableBuilder::Flush`. -/
def flush (r : TableBuilder) : TableBuilder :=
  if r.data_block.buffer = [] then r
  else
    let (r, pending_handle) := r.writeRawBlock crc r.data_block.finish
    { r with
      data_block := .new, pending_handle := pending_handle, pending_index_entry := true }

/-- Add the index entry of the last block if it is pending. -/
def addIndexEntry (r : TableBuilder) : TableBuilder :=
  if r.pending_index_entry then
    { r with
      index_block := r.index_block.add 1 r.last_key r.pending_handle.encodeTo
      pending_index_entry := false }
  else r

/-- `TableBuilder::Add`. -/
def add (r : TableBuilder) (key value : Bytes) : TableBuilder :=
  let r := r.addIndexEntry
  let r := { r with
    last_key := key
    num_entries := r.num_entries + 1
    data_block := r.data_block.add opts.block_restart_interval key value }
  if r.data_block.currentSizeEstimate ≥ opts.block_size then r.flush crc else r

/-- `Finish`; the result is the contents of the file. -/
def finish (r : TableBuilder) : Bytes :=
  let r := r.flush crc
  let (r, metaindex_block_handle) := r.writeRawBlock crc BlockBuilder.new.finish
  let r := r.addIndexEntry
  let (r, index_block_handle) := r.writeRawBlock crc r.index_block.finish
  r.file ++ Footer.encodeTo ⟨metaindex_block_handle, index_block_handle⟩

end TableBuilder

/-- The table file with the given entries. -/
def build (crc : Bytes → UInt32) (opts : Options) (entries : List (Bytes × Bytes)) : Bytes :=
  (entries.foldl (fun r e => r.add crc opts e.1 e.2) TableBuilder.new).finish crc

/-! ### Layout -/

section Layout

variable (crc : Bytes → UInt32) (R : ℕ)

/-- A data block in the file. -/
def dataBlock (c : List (Bytes × Bytes)) : Bytes := storedBlock crc (blockBytes R c)

/-- The last key of a block. -/
def lastKey (c : List (Bytes × Bytes)) : Bytes := (c.getLastD ([], [])).1

/-- The handle of block `j`. -/
def handleOf (cs : List (List (Bytes × Bytes))) (j : ℕ) : BlockHandle :=
  ⟨Pieces.offset (dataBlock crc R) cs j, (blockBytes R (cs.getD j [])).length⟩

/-- The index entry of block `j`. -/
def indexEntry (cs : List (List (Bytes × Bytes))) (j : ℕ) : Bytes × Bytes :=
  (lastKey (cs.getD j []), (handleOf crc R cs j).encodeTo)

/-- The entries of the index block. -/
def indexEntries (cs : List (List (Bytes × Bytes))) : List (Bytes × Bytes) :=
  (List.range cs.length).map (indexEntry crc R cs)

/-- The data blocks and the metaindex block. -/
def tableData (cs : List (List (Bytes × Bytes))) : Bytes :=
  cs.flatMap (dataBlock crc R) ++ storedBlock crc (blockBytes R [])

/-- The file whose data blocks hold the entries `cs`. -/
def tableBytes (cs : List (List (Bytes × Bytes))) : Bytes :=
  tableData crc R cs ++ storedBlock crc (blockBytes 1 (indexEntries crc R cs)) ++
    Footer.encodeTo ⟨⟨(cs.flatMap (dataBlock crc R)).length, (blockBytes R []).length⟩,
      ⟨(tableData crc R cs).length, (blockBytes 1 (indexEntries crc R cs)).length⟩⟩

variable {crc} {R} {cs : List (List (Bytes × Bytes))} {c : List (Bytes × Bytes)}

theorem length_indexEntries : (indexEntries crc R cs).length = cs.length := by
  rw [indexEntries, length_map, length_range]

variable {j : ℕ}

theorem indexEntry_append (hj : j < cs.length) :
    indexEntry crc R (cs ++ [c]) j = indexEntry crc R cs j := by
  rw [indexEntry, indexEntry, handleOf, handleOf, getD_append _ _ _ _ hj,
    Pieces.offset_append _ _ hj.le]

theorem indexEntries_append : indexEntries crc R (cs ++ [c]) =
    indexEntries crc R cs ++ [indexEntry crc R (cs ++ [c]) cs.length] := by
  rw [indexEntries, length_append, length_singleton, range_succ, map_append,
    map_singleton, indexEntries]
  congr 1
  exact map_congr_left fun j hj => indexEntry_append (mem_range.1 hj)

theorem indexEntries_getElem? (hj : j < cs.length) :
    (indexEntries crc R cs)[j]? = some (indexEntry crc R cs j) := by
  rw [indexEntries, List.getElem?_map, List.getElem?_range hj, Option.map_some]

end Layout

/-! ### Division into blocks -/

/-- No non-empty initial part of `c` reaches the block size. -/
def Below (opts : Options) (c : List (Bytes × Bytes)) : Prop :=
  ∀ d, d <+: c → d ≠ [] → (blockBytes opts.block_restart_interval d).length < opts.block_size

/-- The last entry of `c` makes the block reach the block size. -/
def Full (opts : Options) (c : List (Bytes × Bytes)) : Prop :=
  ∃ d e, c = d ++ [e] ∧ Below opts d ∧
    opts.block_size ≤ (blockBytes opts.block_restart_interval c).length

/-- The entries divided into blocks: full blocks, and a last one that may be smaller. -/
structure Chunking (opts : Options) (entries : List (Bytes × Bytes))
    (cs : List (List (Bytes × Bytes))) : Prop where
  flatten : cs.flatten = entries
  ne_nil : ∀ c ∈ cs, c ≠ []
  full : ∀ c ∈ cs.dropLast, Full opts c
  last : ∀ c ∈ cs, Full opts c ∨ Below opts c

variable {opts : Options} {c : List (Bytes × Bytes)}

theorem Full.ne_nil (h : Full opts c) : c ≠ [] := by
  obtain ⟨d, e, rfl, -⟩ := h
  simp

theorem below_nil (opts : Options) : Below opts [] := by
  intro d hd hne
  exact absurd (prefix_nil.1 hd) hne

theorem Below.append {e : Bytes × Bytes}
    (h : Below opts c)
    (hlt : (blockBytes opts.block_restart_interval (c ++ [e])).length < opts.block_size) :
    Below opts (c ++ [e]) := by
  intro d hd hne
  rcases prefix_concat_iff.1 hd with rfl | hd
  · exact hlt
  · exact h d hd hne

namespace TableBuilder

variable {crc : Bytes → UInt32} {opts : Options} {r : TableBuilder}
  {cs : List (List (Bytes × Bytes))} {cur : List (Bytes × Bytes)}

/-- The builder has written the blocks `cs` and holds the entries `cur` of the next one. -/
structure Holds (crc : Bytes → UInt32) (opts : Options) (r : TableBuilder)
    (cs : List (List (Bytes × Bytes))) (cur : List (Bytes × Bytes)) : Prop where
  file : r.file = cs.flatMap (dataBlock crc opts.block_restart_interval)
  offset : r.offset = r.file.length
  data_block : r.data_block.Represents opts.block_restart_interval cur
  /-- The index block lacks the entry of the last block exactly while it is pending. -/
  index_block : r.addIndexEntry.index_block.Represents 1
    (indexEntries crc opts.block_restart_interval cs)
  pending : r.pending_index_entry = true → cur = []
  last_key : cur ≠ [] → r.last_key = lastKey cur

/-- The invariant of the builder: written blocks are full, the current one is not. -/
structure Inv (crc : Bytes → UInt32) (opts : Options) (r : TableBuilder)
    (cs : List (List (Bytes × Bytes))) (cur : List (Bytes × Bytes)) : Prop
    extends Holds crc opts r cs cur where
  full : ∀ c ∈ cs, Full opts c
  below : Below opts cur

theorem inv_new : Inv crc opts new [] [] where
  file := rfl
  offset := rfl
  data_block := BlockBuilder.represents_new
  index_block := BlockBuilder.represents_new
  pending := fun _ => rfl
  last_key := fun h => absurd rfl h
  full := by simp
  below := below_nil opts

theorem buffer_ne_nil {R : ℕ} {b : BlockBuilder} (h : b.Represents R cur) (hne : cur ≠ []) :
    b.buffer ≠ [] := by
  intro hb
  have hlen := length_le_entries cur
  have := length_pos_iff.2 hne
  rw [← h.buffer, hb, length_nil] at hlen
  omega

/-- **Writing the current block** appends it to the file and to the index. -/
theorem Holds.flush_spec (h : Holds crc opts r cs cur) (hne : cur ≠ []) :
    (r.flush crc).file = (cs ++ [cur]).flatMap (dataBlock crc opts.block_restart_interval) ∧
      (r.flush crc).offset = (r.flush crc).file.length ∧
      (r.flush crc).data_block = .new ∧
      (r.flush crc).addIndexEntry.index_block.Represents 1
        (indexEntries crc opts.block_restart_interval (cs ++ [cur])) := by
  have hidle : r.pending_index_entry = false := by
    by_contra hp
    exact hne (h.pending (by simpa using hp))
  have hindex := h.index_block
  simp only [addIndexEntry, hidle, Bool.false_eq_true, if_false] at hindex
  have hfile : (r.flush crc).file =
      (cs ++ [cur]).flatMap (dataBlock crc opts.block_restart_interval) := by
    rw [flush, if_neg (buffer_ne_nil h.data_block hne), flatMap_append,
      flatMap_singleton]
    simp only [writeRawBlock, h.file, dataBlock, h.data_block.finish]
  refine ⟨hfile, ?_, ?_, ?_⟩
  · rw [flush, if_neg (buffer_ne_nil h.data_block hne)]
    simp only [writeRawBlock, length_append, length_storedBlock, h.offset]
    omega
  · rw [flush, if_neg (buffer_ne_nil h.data_block hne)]
  · have hentry : indexEntry crc opts.block_restart_interval (cs ++ [cur]) cs.length =
        (lastKey cur, BlockHandle.encodeTo ⟨r.offset, r.data_block.finish.length⟩) := by
      rw [indexEntry, handleOf, Pieces.offset_append _ _ le_rfl, Pieces.offset_length, h.offset,
        h.file, h.data_block.finish, getD_append_right _ _ _ _ le_rfl, Nat.sub_self]
      rfl
    have hadd := BlockBuilder.represents_add hindex Nat.one_pos
      (indexEntry crc opts.block_restart_interval (cs ++ [cur]) cs.length)
    rw [← indexEntries_append, hentry] at hadd
    rw [flush, if_neg (buffer_ne_nil h.data_block hne)]
    simp only [writeRawBlock, addIndexEntry, if_true, h.last_key hne]
    exact hadd

theorem lastKey_append (c : List (Bytes × Bytes)) (e : Bytes × Bytes) :
    lastKey (c ++ [e]) = e.1 := by
  rw [lastKey, getLastD_concat]

theorem exists_add (crc : Bytes → UInt32) (opts : Options) (r : TableBuilder) (e : Bytes × Bytes) :
    ∃ r', r' = { r.addIndexEntry with
        last_key := e.1
        num_entries := r.addIndexEntry.num_entries + 1
        data_block := r.addIndexEntry.data_block.add opts.block_restart_interval e.1 e.2 } ∧
      r.add crc opts e.1 e.2 =
        if r'.data_block.currentSizeEstimate ≥ opts.block_size then r'.flush crc else r' :=
  ⟨_, rfl, rfl⟩

/-- **Adding an entry** puts it behind the current ones, and writes the block if it is full. -/
theorem Inv.add (h : Inv crc opts r cs cur) (hR : 0 < opts.block_restart_interval)
    (e : Bytes × Bytes) :
    ∃ cs' cur', Inv crc opts (r.add crc opts e.1 e.2) cs' cur' ∧
      cs'.flatten ++ cur' = cs.flatten ++ cur ++ [e] := by
  -- the builder after the entry, before a possible flush
  obtain ⟨r', hr', hadd⟩ := exists_add crc opts r e
  have hkeep : r.addIndexEntry.file = r.file ∧ r.addIndexEntry.offset = r.offset ∧
      r.addIndexEntry.data_block = r.data_block ∧
      r.addIndexEntry.pending_index_entry = false := by
    rw [addIndexEntry]
    split_ifs with hp
    · exact ⟨rfl, rfl, rfl, rfl⟩
    · exact ⟨rfl, rfl, rfl, by simpa using hp⟩
  have hdata : r'.data_block.Represents opts.block_restart_interval (cur ++ [e]) := by
    rw [hr']
    simp only [hkeep.2.2.1]
    exact BlockBuilder.represents_add h.data_block hR e
  have hindex : r'.addIndexEntry.index_block = r.addIndexEntry.index_block := by
    rw [hr', addIndexEntry]
    simp only [hkeep.2.2.2, Bool.false_eq_true, if_false]
  have hne : cur ++ [e] ≠ [] := by simp
  have hholds : Holds crc opts r' cs (cur ++ [e]) :=
    { file := by rw [hr']; exact hkeep.1.trans h.file
      offset := by rw [hr']; simp only [hkeep.1, hkeep.2.1]; exact h.offset
      data_block := hdata
      index_block := by rw [hindex]; exact h.index_block
      pending := by rw [hr']; simp only [hkeep.2.2.2, Bool.false_eq_true, false_implies]
      last_key := fun _ => by rw [hr', lastKey_append] }
  have hsize := hdata.currentSizeEstimate
  rw [hadd]
  split_ifs with hfull
  · obtain ⟨hfile, hoffset, hblock, hidx⟩ := hholds.flush_spec hne
    refine ⟨cs ++ [cur ++ [e]], [], ?_, by simp⟩
    exact
      { file := hfile
        offset := hoffset
        data_block := by rw [hblock]; exact BlockBuilder.represents_new
        index_block := hidx
        pending := fun _ => rfl
        last_key := fun h => absurd rfl h
        full := by
          intro c hc
          rcases mem_append.1 hc with hc | hc
          · exact h.full c hc
          · rw [mem_singleton.1 hc]
            exact ⟨cur, e, rfl, h.below, by rw [← hsize]; exact hfull⟩
        below := below_nil opts }
  · refine ⟨cs, cur ++ [e], ⟨hholds, h.full, h.below.append ?_⟩, by simp⟩
    rw [← hsize]; omega

theorem finish_eq (hfile : (r.flush crc).file =
      cs.flatMap (dataBlock crc opts.block_restart_interval))
    (hoffset : (r.flush crc).offset = (r.flush crc).file.length)
    (hindex : (r.flush crc).addIndexEntry.index_block.Represents 1
      (indexEntries crc opts.block_restart_interval cs)) :
    r.finish crc = tableBytes crc opts.block_restart_interval cs := by
  have hmeta : BlockBuilder.new.finish = blockBytes opts.block_restart_interval [] :=
    BlockBuilder.represents_new.finish
  rw [finish]
  generalize r.flush crc = q at hfile hoffset hindex ⊢
  have hdata : q.file ++ storedBlock crc (blockBytes opts.block_restart_interval []) =
      tableData crc opts.block_restart_interval cs := by
    rw [hfile, tableData]
  have hlen : q.file.length + (blockBytes opts.block_restart_interval []).length +
      kBlockTrailerSize = (tableData crc opts.block_restart_interval cs).length := by
    rw [← hdata, length_append, length_storedBlock, Nat.add_assoc]
  rw [hfile] at hdata hlen
  by_cases hp : q.pending_index_entry = true
  · simp only [addIndexEntry, hp, if_true] at hindex
    simp only [writeRawBlock, addIndexEntry, hp, if_true, hmeta, hindex.finish, hdata, hoffset,
      hlen, tableBytes, hfile]
  · simp only [addIndexEntry, hp, Bool.false_eq_true, if_false] at hindex
    simp only [writeRawBlock, addIndexEntry, hp, Bool.false_eq_true, if_false, hmeta,
      hindex.finish, hdata, hoffset, hlen, tableBytes, hfile]

/-- **What the builder has done after a list of entries.** -/
theorem inv_addAll (crc : Bytes → UInt32) (hR : 0 < opts.block_restart_interval)
    (entries : List (Bytes × Bytes)) :
    ∃ cs cur, Inv crc opts (entries.foldl (fun r e => r.add crc opts e.1 e.2) new) cs cur ∧
      cs.flatten ++ cur = entries := by
  induction entries using List.reverseRecOn with
  | nil => exact ⟨[], [], inv_new, rfl⟩
  | append_singleton entries e ih =>
    obtain ⟨cs, cur, hinv, hflat⟩ := ih
    obtain ⟨cs', cur', hinv', hflat'⟩ := hinv.add hR e
    rw [foldl_append]
    exact ⟨cs', cur', hinv', by rw [hflat', hflat]⟩

end TableBuilder

/-- **A table file is the layout of a chunking of its entries.** -/
theorem build_eq (crc : Bytes → UInt32) (hR : 0 < opts.block_restart_interval)
    (entries : List (Bytes × Bytes)) :
    ∃ cs, Chunking opts entries cs ∧
      build crc opts entries = tableBytes crc opts.block_restart_interval cs := by
  obtain ⟨cs, cur, hinv, hflat⟩ := TableBuilder.inv_addAll crc hR entries
  by_cases hcur : cur = []
  · -- the last entry filled its block, or there is none
    have hflush : ∀ r : TableBuilder, r.data_block.buffer = [] → r.flush crc = r := fun r hr => by
      rw [TableBuilder.flush, if_pos hr]
    have hr := hflush _ (by rw [hinv.data_block.buffer, hcur]; rfl)
    refine ⟨cs, ⟨by rw [← hflat, hcur, append_nil], fun c hc => (hinv.full c hc).ne_nil,
      fun c hc => hinv.full c (dropLast_subset cs hc), fun c hc => Or.inl (hinv.full c hc)⟩, ?_⟩
    exact TableBuilder.finish_eq (by rw [hr]; exact hinv.file) (by rw [hr]; exact hinv.offset)
      (by rw [hr]; exact hinv.index_block)
  · obtain ⟨hfile, hoffset, -, hindex⟩ := hinv.toHolds.flush_spec hcur
    refine ⟨cs ++ [cur], ⟨by simp [hflat], ?_, ?_, ?_⟩,
      TableBuilder.finish_eq hfile hoffset hindex⟩
    · intro c hc
      rcases mem_append.1 hc with hc | hc
      · exact (hinv.full c hc).ne_nil
      · rw [mem_singleton.1 hc]; exact hcur
    · rw [dropLast_concat]; exact hinv.full
    · intro c hc
      rcases mem_append.1 hc with hc | hc
      · exact Or.inl (hinv.full c hc)
      · rw [mem_singleton.1 hc]; exact Or.inr hinv.below

end Bourbon
