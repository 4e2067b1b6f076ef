import Bourbon.Db.Dbformat
import Bourbon.Mod.LearnedIndex
import Bourbon.Table.TableBuilder

/-!
# Reading tables

`table/table.cc`: opening a table file reads the footer and the index block.  `internalGet` is the
baseline lookup: seek in the index block, then in the data block.  `fillData` collects the user
keys of a table for training and records the block geometry, three process-wide numbers, from the
first data block it ever sees.

* `open_tableBytes` : a table file is accepted, and its index block holds the index entries;
* `internalGet_spec` : the handler is called with the first entry that is not before the key;
* `fillData_spec` : all user keys in file order, and the geometry of the first block.
-/

namespace Bourbon

open List Option

/-- Entries with encoded keys. -/
def encodeEntries (entries : List (InternalKey Bytes × Bytes)) : List (Bytes × Bytes) :=
  entries.map fun e => (e.1.encode, e.2)

theorem length_encodeEntries {entries : List (InternalKey Bytes × Bytes)} :
    (encodeEntries entries).length = entries.length := by
  rw [encodeEntries, length_map]

/-- An open table. -/
structure Table where
  file : Bytes
  index_block : Block
  deriving DecidableEq

namespace Table

section

variable (compare : Bytes → Bytes → Ordering) (crc : Bytes → UInt32)

/-- `Table::Open` up to `ReadMeta`, of a file with the function `read`. -/
def openIndex (paranoid_checks : Bool) (read : ℕ → ℕ → Except Status Bytes) (size : ℕ) :
    Except Status (Footer × Block) :=
  if size < kEncodedLength then .error (.corruption "file is too short to be an sstable")
  else do
    let footer_input ← read (size - kEncodedLength) kEncodedLength
    let footer ← Footer.decodeFrom footer_input
    let index_block_contents ← readBlock crc paranoid_checks read footer.index_handle
    .ok (footer, Block.new index_block_contents)

/-- `Table::Open` without a filter policy. -/
def openTable (paranoid_checks : Bool) (file : Bytes) (size : ℕ) : Except Status Table :=
  (openIndex crc paranoid_checks (readFile file) size).map fun p => ⟨file, p.2⟩

/-- `Table::BlockReader` without a block cache: an iterator over the block that an index value
points to. -/
def blockReader (verify_checksums : Bool) (read : ℕ → ℕ → Except Status Bytes)
    (index_value : Bytes) : Except Status (Option Block.Iter) :=
  match BlockHandle.decodeFrom index_value with
  | none => .error (.corruption "bad block handle")
  | some (handle, _) =>
    match readBlock crc verify_checksums read handle with
    | .error s => .error s
    | .ok contents => (Block.new contents).newIterator

/-- `Table::InternalGet` over an index block: the argument of the handler afterwards, and the
status.  `rejects` is what the filter says to an index value. -/
def getFrom {σ : Type*} (index_block : Block) (rejects : Bytes → Bool)
    (blockReader : Bytes → Except Status (Option Block.Iter)) (k : Bytes) (arg : σ)
    (handle_result : σ → Bytes → Bytes → σ) : σ × Status :=
  match index_block.newIterator with
  | .error s => (arg, s)
  | .ok none => (arg, .ok)
  | .ok (some iiter) =>
    let iiter := iiter.seek compare k
    if iiter.valid then
      if rejects iiter.value then (arg, iiter.status)
      else
        match blockReader iiter.value with
        | .error s => (arg, s)
        | .ok none => (arg, iiter.status)
        | .ok (some block_iter) =>
          let block_iter := block_iter.seek compare k
          let arg := if block_iter.valid then handle_result arg block_iter.key block_iter.value
            else arg
          (arg, if block_iter.status = .ok then iiter.status else block_iter.status)
    else (arg, iiter.status)

/-- `Table::InternalGet` without a filter. -/
def internalGet {σ : Type*} (verify_checksums : Bool) (t : Table) (k : Bytes) (arg : σ)
    (handle_result : σ → Bytes → Bytes → σ) : σ × Status :=
  getFrom compare t.index_block (fun _ => false)
    (blockReader crc verify_checksums (readFile t.file))
    k arg handle_result

/-- What `FillData` has collected from one block. -/
structure BlockKeys where
  string_keys : List Bytes
  /-- User key of the last parsed entry. -/
  user_key : Bytes
  num_entries_this_block : ℕ

/-- The loop of `FillData` over the entries of a block. -/
def fillBlock : ℕ → Block.Iter → BlockKeys → BlockKeys
  | 0, _, c => c
  | fuel + 1, block_iter, c =>
    let (block_iter, ok) := block_iter.parseNextKey
    if ok then
      let user_key := if block_iter.key.length < 8 then c.user_key
        else extractUserKey block_iter.key
      fillBlock fuel block_iter
        ⟨c.string_keys ++ [user_key], user_key, c.num_entries_this_block + 1⟩
    else c

/-- The number of entries accumulated so far. -/
def numEntries (array : List (ℕ × Bytes)) : ℕ := (array.getLastD (0, [])).1

/-- One round of the loop of `FillData` over the index block; `none` stands for undefined
behaviour. -/
def fillIndexEntry (verify_checksums : Bool) (t : Table) (index_iter : Block.Iter)
    (st : LearnedIndexData × BlockGeometry) (i : ℕ) : Option (LearnedIndexData × BlockGeometry) :=
  let index_iter := (index_iter.seekToRestartPoint i).parseNextKey.1
  if !index_iter.valid then none
  else
    match blockReader crc verify_checksums (readFile t.file) index_iter.value with
    | .error _ => none
    | .ok none => none
    | .ok (some block_iter) =>
      let (data, g) := st
      let c := fillBlock (block_iter.restarts + 1) (block_iter.seekToRestartPoint 0)
        ⟨data.string_keys, [], 0⟩
      if !g.block_num_entries_recorded && c.num_entries_this_block = 0 then none
      else
        let g := if g.block_num_entries_recorded then g
          else
            { block_num_entries := c.num_entries_this_block
              block_num_entries_recorded := true
              entry_size := block_iter.restarts / c.num_entries_this_block
              block_size := ((BlockHandle.decodeFrom index_iter.value).getD (⟨0, 0⟩, [])).1.size +
                kBlockTrailerSize }
        let current_total := numEntries data.num_entries_accumulated
        let accumulated := if data.learned then data.num_entries_accumulated
          else data.num_entries_accumulated ++
            [(current_total + c.num_entries_this_block, c.user_key)]
        some ({ data with
          string_keys := c.string_keys, num_entries_accumulated := accumulated }, g)

/-- `Table::FillData`. -/
def fillData (verify_checksums : Bool) (t : Table) (data : LearnedIndexData) (g : BlockGeometry) :
    Option (LearnedIndexData × BlockGeometry) :=
  if data.filled then some (data, g)
  else
    match t.index_block.newIterator with
    | .ok (some index_iter) =>
      ((List.range index_iter.num_restarts).foldlM
        (fillIndexEntry crc verify_checksums t index_iter) (data, g)).map
        fun st => ({ st.1 with filled := true }, st.2)
    | _ => none

end

/-! ### Opening -/

/-- The limits of the format: offsets inside a block have 32 bits, offsets in the file 64. -/
structure Fits (crc : Bytes → UInt32) (R : ℕ) (cs : List (List (Bytes × Bytes))) : Prop where
  data : ∀ c ∈ cs, (blockBytes R c).length < 2 ^ 32
  index : (blockBytes 1 (indexEntries crc R cs)).length < 2 ^ 32
  file : (tableBytes crc R cs).length < 2 ^ 64

/-- An open table whose data blocks hold the entries `cs`. -/
structure IsTable (crc : Bytes → UInt32) (R : ℕ) (cs : List (List (Bytes × Bytes))) (t : Table) :
    Prop where
  pos : 0 < R
  ne_nil : ∀ c ∈ cs, c ≠ []
  file : t.file = tableBytes crc R cs
  index_block : t.index_block = Block.new (blockBytes 1 (indexEntries crc R cs))
  fits : Fits crc R cs

variable {crc : Bytes → UInt32} {R : ℕ} {cs : List (List (Bytes × Bytes))} {t : Table} {j : ℕ}
  {c : List (Bytes × Bytes)}

theorem length_tableBytes (crc : Bytes → UInt32) (R : ℕ) (cs : List (List (Bytes × Bytes))) :
    (tableBytes crc R cs).length = (tableData crc R cs).length +
      ((blockBytes 1 (indexEntries crc R cs)).length + kBlockTrailerSize) + kEncodedLength := by
  rw [tableBytes, length_append, length_append, length_storedBlock,
    Footer.length_encodeTo]

theorem length_tableData (crc : Bytes → UInt32) (R : ℕ) (cs : List (List (Bytes × Bytes))) :
    (tableData crc R cs).length = (cs.flatMap (dataBlock crc R)).length +
      ((blockBytes R []).length + kBlockTrailerSize) := by
  rw [tableData, length_append, length_storedBlock]

/-- A file has more bytes than entries. -/
theorem length_flatten_le (crc : Bytes → UInt32) (R : ℕ) (cs : List (List (Bytes × Bytes))) :
    cs.flatten.length ≤ (tableBytes crc R cs).length := by
  have hdata : cs.flatten.length ≤ (cs.flatMap (dataBlock crc R)).length := by
    induction cs with
    | nil => exact Nat.zero_le _
    | cons c cs ih =>
      have hc := length_le_entries c
      have hblock := length_blockBytes R c
      rw [flatten_cons, flatMap_cons, length_append, length_append, dataBlock,
        length_storedBlock]
      omega
  have h1 := length_tableBytes crc R cs
  have h2 := length_tableData crc R cs
  omega

theorem ok_bind {ε α β : Type} (a : α) (f : α → Except ε β) : (Except.ok a >>= f) = f a := rfl

/-- **A table file is accepted.** -/
theorem open_tableBytes (paranoid : Bool) (hR : 0 < R) (hne : ∀ c ∈ cs, c ≠ [])
    (h : Fits crc R cs) :
    ∃ t, openTable crc paranoid (tableBytes crc R cs) (tableBytes crc R cs).length = .ok t ∧
      IsTable crc R cs t := by
  have hlen := length_tableBytes crc R cs
  have hdata := length_tableData crc R cs
  have hfile := h.file
  obtain ⟨footer, hfooter⟩ : ∃ footer : Footer, footer =
      ⟨⟨(cs.flatMap (dataBlock crc R)).length, (blockBytes R []).length⟩,
      ⟨(tableData crc R cs).length, (blockBytes 1 (indexEntries crc R cs)).length⟩⟩ := ⟨_, rfl⟩
  have hbytes : tableBytes crc R cs = tableData crc R cs ++
      storedBlock crc (blockBytes 1 (indexEntries crc R cs)) ++ footer.encodeTo := by
    rw [hfooter, tableBytes]
  have hread : readFile (tableBytes crc R cs) ((tableBytes crc R cs).length - kEncodedLength)
      kEncodedLength = .ok footer.encodeTo := by
    have hsplit := readFile_append (tableData crc R cs ++
      storedBlock crc (blockBytes 1 (indexEntries crc R cs))) footer.encodeTo []
      (by rw [append_nil, ← hbytes]; omega)
    have hoff : (tableBytes crc R cs).length - kEncodedLength = (tableData crc R cs ++
        storedBlock crc (blockBytes 1 (indexEntries crc R cs))).length := by
      rw [hlen, Nat.add_sub_cancel, length_append, length_storedBlock]
    rw [append_nil, ← hbytes, Footer.length_encodeTo] at hsplit
    rw [hoff]
    exact hsplit
  have hdec : Footer.decodeFrom footer.encodeTo = .ok footer := by
    refine Footer.decodeFrom_encodeTo ?_ ?_ ?_ ?_ <;> rw [hfooter] <;> simp only <;> omega
  have hindex : readBlock crc paranoid (readFile (tableBytes crc R cs)) footer.index_handle =
      .ok (blockBytes 1 (indexEntries crc R cs)) := by
    have := readBlock_storedBlock crc paranoid (tableData crc R cs)
      (blockBytes 1 (indexEntries crc R cs)) footer.encodeTo (by rw [← hbytes]; omega)
    rwa [← hbytes, show (⟨(tableData crc R cs).length, _⟩ : BlockHandle) = footer.index_handle by
      rw [hfooter]] at this
  refine ⟨⟨tableBytes crc R cs, Block.new (blockBytes 1 (indexEntries crc R cs))⟩, ?_, hR, hne, rfl,
    rfl, h⟩
  rw [openTable, openIndex, if_neg (by omega), hread, ok_bind, hdec, ok_bind, hindex, ok_bind]
  rfl

/-! ### Blocks of a table -/

theorem IsTable.index_iter (h : IsTable crc R cs t) :
    ∃ it, t.index_block.newIterator = .ok (some it) ∧ it.Over 1 (indexEntries crc R cs) ∧
      it.status = .ok := by
  rw [h.index_block]
  exact Block.Iter.newIterator_blockBytes h.fits.index

theorem tableBytes_split (crc : Bytes → UInt32) (R : ℕ) (hc : cs[j]? = some c) :
    ∃ pre post, tableBytes crc R cs = pre ++ storedBlock crc (blockBytes R c) ++ post ∧
      pre.length = Pieces.offset (dataBlock crc R) cs j := by
  obtain ⟨hj, rfl⟩ := List.getElem?_eq_some_iff.1 hc
  have hsplit : cs.flatMap (dataBlock crc R) = (cs.take j).flatMap (dataBlock crc R) ++
      (storedBlock crc (blockBytes R cs[j]) ++ (cs.drop (j + 1)).flatMap (dataBlock crc R)) := by
    conv_lhs => rw [← take_append_drop j cs, drop_eq_getElem_cons hj]
    rw [flatMap_append, flatMap_cons]
    rfl
  refine ⟨(cs.take j).flatMap (dataBlock crc R), ?_, ?_, rfl⟩
  · exact (cs.drop (j + 1)).flatMap (dataBlock crc R) ++ (storedBlock crc (blockBytes R []) ++
      (storedBlock crc (blockBytes 1 (indexEntries crc R cs)) ++
        Footer.encodeTo ⟨⟨(cs.flatMap (dataBlock crc R)).length, (blockBytes R []).length⟩,
          ⟨(tableData crc R cs).length, (blockBytes 1 (indexEntries crc R cs)).length⟩⟩))
  · conv_lhs => rw [tableBytes, tableData, hsplit]
    simp only [append_assoc]
    rw [tableData, hsplit]
    simp only [append_assoc]

theorem block_le (crc : Bytes → UInt32) (R : ℕ) (hc : cs[j]? = some c) :
    Pieces.offset (dataBlock crc R) cs j + ((blockBytes R c).length + kBlockTrailerSize) ≤
      (tableBytes crc R cs).length := by
  obtain ⟨pre, post, hsplit, hpre⟩ := tableBytes_split crc R hc
  rw [hsplit, length_append, length_append, length_storedBlock, hpre]
  omega

theorem fits_of_length_lt (h : (tableBytes crc R cs).length < 2 ^ 32) : Fits crc R cs := by
  have hlen := length_tableBytes crc R cs
  refine ⟨fun c hc => ?_, by omega, by omega⟩
  obtain ⟨j, hj, rfl⟩ := getElem_of_mem hc
  have := block_le crc R (List.getElem?_eq_getElem hj)
  omega

theorem IsTable.handle_lt (h : IsTable crc R cs t) (hc : cs[j]? = some c) :
    (handleOf crc R cs j).offset < 2 ^ 64 ∧ (handleOf crc R cs j).size < 2 ^ 64 := by
  have hlt := block_le crc R hc
  have hfits := h.fits.file
  have hgetD : cs.getD j [] = c := by rw [getD_eq_getElem?_getD, hc, getD_some]
  rw [handleOf, hgetD]
  constructor <;> simp only <;> omega

theorem IsTable.blockReader_block (h : IsTable crc R cs t) (verify : Bool)
    (hc : cs[j]? = some c) :
    blockReader crc verify (readFile t.file) (indexEntry crc R cs j).2 =
      (Block.new (blockBytes R c)).newIterator := by
  obtain ⟨hoffset, hsize⟩ := h.handle_lt hc
  have hlt := block_le crc R hc
  have hfits := h.fits.file
  obtain ⟨pre, post, hsplit, hpre⟩ := tableBytes_split crc R hc
  have hgetD : cs.getD j [] = c := by rw [getD_eq_getElem?_getD, hc, getD_some]
  have hhandle : handleOf crc R cs j = ⟨pre.length, (blockBytes R c).length⟩ := by
    rw [handleOf, hgetD, hpre]
  have hread : readBlock crc verify (readFile (tableBytes crc R cs)) (handleOf crc R cs j) =
      .ok (blockBytes R c) := by
    have := readBlock_storedBlock crc verify pre (blockBytes R c) post (by rw [← hsplit]; omega)
    rwa [← hsplit, ← hhandle] at this
  have hdec := BlockHandle.decodeFrom_encodeTo hoffset hsize []
  rw [append_nil] at hdec
  rw [blockReader, indexEntry, hdec, h.file]
  simp only [hread]

/-- **The index value of a block leads to its entries.** -/
theorem IsTable.blockReader_eq (h : IsTable crc R cs t) (verify : Bool) (hc : cs[j]? = some c) :
    ∃ it, blockReader crc verify (readFile t.file) (indexEntry crc R cs j).2 = .ok (some it) ∧
      it.Over R c ∧ it.status = .ok := by
  rw [h.blockReader_block verify hc]
  exact Block.Iter.newIterator_blockBytes (h.fits.data c (mem_of_getElem? hc))

/-! ### Lookup -/

variable {compare : Bytes → Bytes → Ordering} {k : Bytes}

theorem getLastD_mem {c : List (Bytes × Bytes)} (h : c ≠ []) : c.getLastD ([], []) ∈ c := by
  rw [getLastD_eq_getLast?, List.getLast?_eq_some_getLast h]
  exact getLast_mem h

theorem cut_indexEntries (hne : ∀ c ∈ cs, c ≠ []) (hcut : Block.Iter.Cut compare cs.flatten k) :
    Block.Iter.Cut compare (indexEntries crc R cs) k := by
  rw [Block.Iter.Cut, pairwise_flatten] at hcut
  rw [Block.Iter.Cut, indexEntries, pairwise_map]
  refine pairwise_lt_range.imp_of_mem fun {i j} hi hj hij => ?_
  have hi : i < cs.length := mem_range.1 hi
  have hj : j < cs.length := mem_range.1 hj
  have hpair := pairwise_iff_getElem.1 hcut.2 i j hi hj hij
  simp only [indexEntry, lastKey, getD_eq_getElem _ _ hi, getD_eq_getElem _ _ hj]
  exact hpair _ (getLastD_mem (hne _ (getElem_mem hi))) _
    (getLastD_mem (hne _ (getElem_mem hj)))

/-- **The baseline lookup hands over the first entry that is not before the key.** -/
theorem internalGet_spec {σ : Type*} (h : IsTable crc R cs t) (verify : Bool)
    (hcut : Block.Iter.Cut compare cs.flatten k) (arg : σ) (handler : σ → Bytes → Bytes → σ) :
    t.internalGet compare crc verify k arg handler =
      (match cs.flatten.find? fun e => compare e.1 k != .lt with
        | some e => handler arg e.1 e.2
        | none => arg, .ok) := by
  have hmono : cs.flatten.Pairwise fun a b => (compare a.1 k != .lt) = true →
      (compare b.1 k != .lt) = true := by
    refine hcut.imp fun {a b} hab ha => ?_
    rw [bne_iff_ne] at ha ⊢
    exact fun hb => ha (hab hb)
  have hfind := Pieces.find?_flatten ([], []) h.ne_nil hmono
  obtain ⟨iiter, hiiter, hover, hst⟩ := h.index_iter
  obtain ⟨hfound, hstatus⟩ := Block.Iter.seek_spec hover Nat.one_pos
    (cut_indexEntries h.ne_nil hcut)
  rw [hst] at hstatus
  rw [indexEntries, List.find?_map] at hfound
  rw [internalGet, getFrom, hiiter, hfind]
  simp only
  generalize iiter.seek compare k = iiter' at hfound hstatus ⊢
  cases hj : (List.range cs.length).find? fun j =>
      compare ((cs.getD j []).getLastD ([], [])).1 k != .lt with
  | none =>
    -- the key is behind the last block
    have hnone : (List.range cs.length).find?
        ((fun e => compare e.1 k != .lt) ∘ indexEntry crc R cs) = none := hj
    rw [hnone, map_none] at hfound
    simp only [show iiter'.valid = false from hfound, Bool.false_eq_true, if_false, hstatus,
      bind_none]
  | some j =>
    have hsome : (List.range cs.length).find?
        ((fun e => compare e.1 k != .lt) ∘ indexEntry crc R cs) = some j := hj
    rw [hsome, map_some] at hfound
    obtain ⟨hvalid, -, hvalue⟩ : iiter'.valid = true ∧ _ ∧ iiter'.value = _ := hfound
    have hjlt : j < cs.length := mem_range.1 (mem_of_find?_eq_some hj)
    have hget := List.getElem?_eq_getElem hjlt
    obtain ⟨bit, hbit, hbover, hbst⟩ := h.blockReader_eq verify hget
    -- the block is searched as a part of the file
    have hblockcut : Block.Iter.Cut compare cs[j] k :=
      (pairwise_flatten.1 hcut).1 _ (getElem_mem hjlt)
    obtain ⟨hbfound, hbstatus⟩ := Block.Iter.seek_spec hbover h.pos hblockcut
    rw [hbst] at hbstatus
    rw [hvalid, hvalue, hbit]
    simp only [if_true, Bool.false_eq_true, if_false, Option.bind_some, getD_eq_getElem _ _ hjlt]
    generalize bit.seek compare k = bit' at hbfound hbstatus ⊢
    cases he : cs[j].find? fun e => compare e.1 k != .lt with
    | none =>
      rw [he] at hbfound
      simp only [show bit'.valid = false from hbfound, hbstatus, Bool.false_eq_true, if_false,
        if_true, hstatus]
    | some e =>
      rw [he] at hbfound
      obtain ⟨hbv, hbk, hbval⟩ : bit'.valid = true ∧ bit'.key = e.1 ∧ bit'.value = e.2 := hbfound
      simp only [hbv, hbk, hbval, hbstatus, if_true, hstatus]

/-! ### Collecting keys -/

/-- The user keys of the entries. -/
def userKeys (c : List (Bytes × Bytes)) : List Bytes := c.map fun e => extractUserKey e.1

theorem fillBlock_spec {it : Block.Iter} {i : ℕ} (fuel : ℕ) (hkeys : ∀ e ∈ c, 8 ≤ e.1.length)
    (h : it.Over R c) (hb : it.Before c i) (hi : i ≤ c.length) (hfuel : c.length - i < fuel)
    (st : BlockKeys) :
    fillBlock fuel it st = ⟨st.string_keys ++ userKeys (c.drop i),
      (userKeys (c.drop i)).getLastD st.user_key, st.num_entries_this_block + (c.length - i)⟩ := by
  induction fuel generalizing i it st with
  | zero => omega
  | succ fuel ih =>
    rw [fillBlock]
    rcases hi.eq_or_lt with rfl | hlt
    · obtain ⟨it', hit', -, -⟩ := Block.Iter.parseNextKey_end h hb
      rw [hit', drop_length]
      simp [userKeys]
    · obtain ⟨it', hit', hover, hbefore, -, hkey, -, -⟩ :=
        Block.Iter.parseNextKey_on h hb (List.getElem?_eq_getElem hlt)
      have hlen : ¬ (c)[i].1.length < 8 := not_lt.2 (hkeys _ (getElem_mem hlt))
      rw [hit', drop_eq_getElem_cons hlt]
      simp only [if_true, hkey, if_neg hlen]
      rw [ih hover hbefore hlt (by omega)]
      simp only [userKeys, map_cons, append_assoc, singleton_append,
        getLastD_cons]
      congr 1
      omega

/-- The geometry recorded from a block, if none is recorded yet. -/
def recordGeometry (R : ℕ) (g : BlockGeometry) (c : List (Bytes × Bytes)) : BlockGeometry :=
  if g.block_num_entries_recorded then g
  else ⟨c.length, (blockBytes R c).length + kBlockTrailerSize,
    (c.flatMap encodeEntry).length / c.length, true⟩

/-- The model data with the keys of one more block. -/
def collect (data : LearnedIndexData) (c : List (Bytes × Bytes)) : LearnedIndexData :=
  { data with
    string_keys := data.string_keys ++ userKeys c
    num_entries_accumulated := if data.learned then data.num_entries_accumulated
      else data.num_entries_accumulated ++
        [(numEntries data.num_entries_accumulated + c.length, (userKeys c).getLastD [])] }

theorem fillIndexEntry_eq (h : IsTable crc R cs t) (verify : Bool) {iiter : Block.Iter}
    (hover : iiter.Over 1 (indexEntries crc R cs)) (hkeys : ∀ e ∈ cs.flatten, 8 ≤ e.1.length)
    (hc : cs[j]? = some c) (data : LearnedIndexData) (g : BlockGeometry) :
    fillIndexEntry crc verify t iiter (data, g) j =
      some (collect data c, recordGeometry R g c) := by
  have hj : j < cs.length := (List.getElem?_eq_some_iff.1 hc).1
  have hcmem : c ∈ cs := mem_of_getElem? hc
  have hcne : c ≠ [] := h.ne_nil c hcmem
  have hcpos : 0 < c.length := length_pos_iff.2 hcne
  have hgetD : cs.getD j [] = c := by rw [getD_eq_getElem?_getD, hc, getD_some]
  -- the index entry of the block
  have hcount : j < restartCount 1 (indexEntries crc R cs).length := by
    rw [restartCount, length_indexEntries, Nat.div_one]; omega
  have hbefore : (iiter.seekToRestartPoint j).Before (indexEntries crc R cs) j := by
    have := Block.Iter.getRestartPoint_eq hover hcount
    rw [Nat.mul_one] at this
    exact this
  have hseek : (iiter.seekToRestartPoint j).Over 1 (indexEntries crc R cs) :=
    ⟨hover.data, hover.restarts, hover.num_restarts, hover.fits⟩
  obtain ⟨iit, hiit, -, -, hivalid, -, hivalue, -⟩ :=
    Block.Iter.parseNextKey_on hseek hbefore (indexEntries_getElem? hj)
  -- the entries of the block
  obtain ⟨bit, hbit, hbover, -⟩ := h.blockReader_eq verify hc
  have hbkeys : ∀ e ∈ c, 8 ≤ e.1.length := fun e he =>
    hkeys e (mem_flatten.2 ⟨c, hcmem, he⟩)
  have hb0 : (bit.seekToRestartPoint 0).Before c 0 := by
    have := Block.Iter.getRestartPoint_eq hbover (Nat.succ_pos _)
    rw [Nat.zero_mul] at this
    exact this
  have hbover0 : (bit.seekToRestartPoint 0).Over R c :=
    ⟨hbover.data, hbover.restarts, hbover.num_restarts, hbover.fits⟩
  have hsize := length_le_entries c
  have hfill := fillBlock_spec (bit.restarts + 1) hbkeys hbover0 hb0 (Nat.zero_le _)
    (by rw [hbover.restarts]; omega) ⟨data.string_keys, [], 0⟩
  simp only [drop_zero, Nat.sub_zero, Nat.zero_add] at hfill
  -- the size in the handle
  have hdec : BlockHandle.decodeFrom (indexEntry crc R cs j).2 =
      some (handleOf crc R cs j, []) := by
    obtain ⟨hoffset, hsize⟩ := h.handle_lt hc
    have := BlockHandle.decodeFrom_encodeTo hoffset hsize []
    rwa [append_nil] at this
  rw [fillIndexEntry, hiit]
  simp only [hivalid, Bool.not_true, Bool.false_eq_true, if_false, hivalue, hbit, hfill]
  have hc0 : ¬ (!g.block_num_entries_recorded && decide (c.length = 0)) = true := by
    simp [hcpos.ne']
  rw [if_neg hc0, hdec, hbover.restarts]
  simp only [getD_some, handleOf, hgetD, collect, recordGeometry]

theorem foldl_collect (cs : List (List (Bytes × Bytes))) (data : LearnedIndexData) :
    (cs.foldl collect data).string_keys = data.string_keys ++ userKeys cs.flatten ∧
      (cs.foldl collect data).error = data.error ∧
      (cs.foldl collect data).is_level = data.is_level ∧
      (cs.foldl collect data).learned = data.learned := by
  induction cs generalizing data with
  | nil => simp [userKeys]
  | cons c cs ih =>
    obtain ⟨h1, h2, h3⟩ := ih (collect data c)
    rw [foldl_cons, flatten_cons]
    refine ⟨?_, h2, h3⟩
    rw [h1, collect]
    simp only [userKeys, map_append, append_assoc]

theorem foldl_recordGeometry (cs : List (List (Bytes × Bytes))) {g : BlockGeometry}
    (h : g.block_num_entries_recorded = true) : cs.foldl (recordGeometry R) g = g := by
  induction cs with
  | nil => rfl
  | cons c cs ih => rw [foldl_cons, recordGeometry, if_pos h, ih]

variable {data : LearnedIndexData}

/-- The index block of a table without entries has a restart point but no entry behind it. -/
theorem fillData_nil (h : IsTable crc R [] t) (verify : Bool)
    (hfilled : data.filled = false) (g : BlockGeometry) : t.fillData crc verify data g = none := by
  obtain ⟨iiter, hiiter, hover, -⟩ := h.index_iter
  have hnum : iiter.num_restarts = 1 := by
    rw [hover.num_restarts, length_indexEntries, length_nil, restartCount]
  have hbefore : (iiter.seekToRestartPoint 0).Before (indexEntries crc R []) 0 :=
    Block.Iter.getRestartPoint_eq hover (Nat.succ_pos _)
  have hseek : (iiter.seekToRestartPoint 0).Over 1 (indexEntries crc R []) :=
    ⟨hover.data, hover.restarts, hover.num_restarts, hover.fits⟩
  obtain ⟨it, hit, hvalid, -⟩ := Block.Iter.parseNextKey_end hseek hbefore
  have hround : fillIndexEntry crc verify t iiter (data, g) 0 = none := by
    rw [fillIndexEntry, hit]
    simp only [hvalid, Bool.not_false, if_true]
  rw [fillData, hfilled, hiiter]
  simp only [Bool.false_eq_true, if_false, hnum, range_one, foldlM_cons, hround,
    bind_eq_bind, bind_none, map_none]

/-- **Filling the data of a table** collects its user keys in file order and records the geometry
of its first block, unless one is recorded. -/
theorem fillData_spec (h : IsTable crc R cs t) (verify : Bool) (hcs : cs ≠ [])
    (hkeys : ∀ e ∈ cs.flatten, 8 ≤ e.1.length)
    (hfilled : data.filled = false) (g : BlockGeometry) :
    t.fillData crc verify data g =
      some ({ cs.foldl collect data with filled := true }, cs.foldl (recordGeometry R) g) := by
  obtain ⟨iiter, hiiter, hover, -⟩ := h.index_iter
  have hnum : iiter.num_restarts = cs.length := by
    have := length_pos_iff.2 hcs
    rw [hover.num_restarts, restartCount, length_indexEntries, Nat.div_one]
    omega
  -- the first `m` rounds collect the first `m` blocks
  have hrounds : ∀ m ≤ cs.length, (List.range m).foldlM (fillIndexEntry crc verify t iiter)
      (data, g) = some ((cs.take m).foldl collect data,
        (cs.take m).foldl (recordGeometry R) g) := by
    intro m
    induction m with
    | zero => intro _; rfl
    | succ m ih =>
      intro hm
      have hget := List.getElem?_eq_getElem hm
      rw [range_succ, foldlM_append, ih (Nat.le_of_succ_le hm)]
      simp only [bind_eq_bind, Option.bind_some, foldlM_cons, foldlM_nil]
      rw [fillIndexEntry_eq h verify hover hkeys hget, take_add_one, hget]
      simp only [Option.pure_def, Option.bind_some, Option.toList_some, foldl_append,
        foldl_cons, foldl_nil]
  have hall := hrounds cs.length le_rfl
  rw [take_length] at hall
  rw [fillData, hfilled, hiiter]
  simp only [Bool.false_eq_true, if_false, hnum, hall, map_some]

/-! ### Tables of built files -/

/-- The open table of the file that the builder writes for the given entries. -/
structure Opened (crc : Bytes → UInt32) (opts : Options) (entries : List (Bytes × Bytes))
    (t : Table) : Prop where
  restart : 0 < opts.block_restart_interval
  fits : ∀ cs, build crc opts entries = tableBytes crc opts.block_restart_interval cs →
    Fits crc opts.block_restart_interval cs
  opened : ∃ paranoid_checks, openTable crc paranoid_checks (build crc opts entries)
    (build crc opts entries).length = .ok t

variable {opts : Options} {entries : List (Bytes × Bytes)}

theorem exists_opened (paranoid : Bool)
    (hR : 0 < opts.block_restart_interval)
    (hfits : ∀ cs, build crc opts entries = tableBytes crc opts.block_restart_interval cs →
      Fits crc opts.block_restart_interval cs) :
    ∃ t, openTable crc paranoid (build crc opts entries) (build crc opts entries).length = .ok t ∧
      Opened crc opts entries t := by
  obtain ⟨cs, hcs, hbuild⟩ := build_eq crc hR entries
  obtain ⟨t, hopen, -⟩ := open_tableBytes paranoid hR hcs.ne_nil (hfits cs hbuild)
  rw [← hbuild] at hopen
  exact ⟨t, hopen, hR, hfits, paranoid, hopen⟩

/-- **The blocks of a built table.** -/
theorem Opened.layout
    (h : Opened crc opts entries t) :
    ∃ cs, IsTable crc opts.block_restart_interval cs t ∧ Chunking opts entries cs := by
  obtain ⟨paranoid, hopen⟩ := h.opened
  obtain ⟨cs, hcs, hbuild⟩ := build_eq crc h.restart entries
  obtain ⟨t', hopen', ht'⟩ := open_tableBytes paranoid h.restart
    hcs.ne_nil (h.fits cs hbuild)
  rw [← hbuild, hopen, Except.ok.injEq] at hopen'
  subst hopen'
  exact ⟨cs, ht', hcs⟩

end Table

end Bourbon
