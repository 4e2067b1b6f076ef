import Bourbon.Table.BlockCursor
import Bourbon.Table.Table
import Bourbon.Table.TwoLevelIterator

/-!
# Table files give back what was put in

`Table::NewIterator` is a two-level iterator over the index block and the data blocks.  For the
file that `TableBuilder` writes it moves over the entries in file order, and `Table::InternalGet`
hands over the first entry that is not before the key.

* `Table.IsTable.blocks` : index and data blocks are what a two-level iterator needs;
* `Table.reads_back_built` : opening, scanning and looking up in a built file;
* `Table.internalGet_value_too_long` : lengths inside a block have 32 bits, so a value of 4 GiB
  does not come back.
-/

namespace Bourbon

open List

open SortedIterator

namespace Table

section

variable (compare : Bytes → Bytes → Ordering) (crc : Bytes → UInt32)

/-- The two levels of the iterator over a table. -/
def source (verify_checksums : Bool) (t : Table) :
    TwoLevelSource (Except Status (Option Block.Iter)) (Except Status (Option Block.Iter))
      (Bytes × Bytes) Bytes Bytes where
  index := Block.iterator compare
  data := Block.iterator compare
  data_status := Block.iteratorStatus
  block_function := blockReader crc verify_checksums (readFile t.file)

/-- The operations of the iterator over a table.  The index block has more bytes than entries. -/
def iterator (verify_checksums : Bool) (t : Table) :
    SortedIterator (TwoLevelIterator (Except Status (Option Block.Iter))
      (Except Status (Option Block.Iter)) Bytes) (Bytes × Bytes) Bytes :=
  TwoLevelIterator.iterator (t.source compare crc verify_checksums) t.index_block.size

/-- `Table::NewIterator`. -/
def newIterator (t : Table) : TwoLevelIterator (Except Status (Option Block.Iter))
    (Except Status (Option Block.Iter)) Bytes :=
  ⟨t.index_block.newIterator, none, [], .ok⟩

end

/-! ### The two levels -/

variable {compare : Bytes → Bytes → Ordering} {crc : Bytes → UInt32} {R : ℕ}
  {cs : List (List (Bytes × Bytes))} {t : Table} {i j : ℕ}

/-- The entries of the block with the given handle. -/
def blockEntries (crc : Bytes → UInt32) (R : ℕ) (cs : List (List (Bytes × Bytes)))
    (handle : Bytes) : List (Bytes × Bytes) :=
  (((List.range cs.length).find? fun j => (indexEntry crc R cs j).2 == handle).bind fun j =>
    cs[j]?).getD []

theorem IsTable.handle_inj (h : IsTable crc R cs t) (hi : i < cs.length) (hj : j < cs.length)
    (heq : (indexEntry crc R cs i).2 = (indexEntry crc R cs j).2) : i = j := by
  obtain ⟨hio, his⟩ := h.handle_lt (List.getElem?_eq_getElem hi)
  obtain ⟨hjo, hjs⟩ := h.handle_lt (List.getElem?_eq_getElem hj)
  have hdi := BlockHandle.decodeFrom_encodeTo hio his []
  have hdj := BlockHandle.decodeFrom_encodeTo hjo hjs []
  rw [show (handleOf crc R cs i).encodeTo = (handleOf crc R cs j).encodeTo from heq, hdj] at hdi
  have hoff : Pieces.offset (dataBlock crc R) cs j = Pieces.offset (dataBlock crc R) cs i :=
    congrArg (fun x : Option (BlockHandle × Bytes) => (x.getD (⟨0, 0⟩, [])).1.offset) hdi
  have hpos : ∀ c ∈ cs, 0 < (dataBlock crc R c).length := fun c _ => by
    rw [dataBlock, length_storedBlock]
    exact Nat.add_pos_right _ (by decide)
  rcases lt_trichotomy i j with hlt | heq | hlt
  · exact absurd hoff (Pieces.offset_lt hpos hi hlt).ne'
  · exact heq
  · exact absurd hoff (Pieces.offset_lt hpos hj hlt).ne

theorem IsTable.blockEntries_eq (h : IsTable crc R cs t) (hj : j < cs.length) :
    blockEntries crc R cs (indexEntry crc R cs j).2 = cs[j] := by
  have hfind : ((List.range cs.length).find? fun i =>
      (indexEntry crc R cs i).2 == (indexEntry crc R cs j).2) = some j := by
    refine List.find?_range_eq_some.2 ⟨beq_self_eq_true _, mem_range.2 hj, fun i hi => ?_⟩
    have hne : (indexEntry crc R cs i).2 ≠ (indexEntry crc R cs j).2 := fun heq =>
      absurd (h.handle_inj (hi.trans hj) hj heq) hi.ne
    simpa using hne
  rw [blockEntries, hfind, Option.bind_some, List.getElem?_eq_getElem hj, Option.getD_some]

theorem IsTable.flatMap_index (h : IsTable crc R cs t) :
    ((indexEntries crc R cs).flatMap fun e => blockEntries crc R cs e.2) = cs.flatten := by
  rw [flatMap_def, indexEntries, map_map]
  congr 1
  refine ext_getElem (by simp) fun i hi hi' => ?_
  rw [getElem_map, getElem_range, Function.comp_apply, h.blockEntries_eq hi']

theorem IsTable.mem_index (h : IsTable crc R cs t) {e : Bytes × Bytes}
    (he : e ∈ indexEntries crc R cs) :
    ∃ j, ∃ hj : j < cs.length, e = indexEntry crc R cs j ∧ blockEntries crc R cs e.2 = cs[j] := by
  obtain ⟨j, hj, rfl⟩ := mem_map.1 he
  have hj := mem_range.1 hj
  exact ⟨j, hj, rfl, h.blockEntries_eq hj⟩

theorem before_of_lastKey {c : List (Bytes × Bytes)} {target : Bytes}
    (hcut : Block.Iter.Cut compare c target) (hlast : compare (lastKey c) target = .lt)
    {a : Bytes × Bytes} (ha : a ∈ c) : compare a.1 target = .lt := by
  obtain ⟨d, b, rfl⟩ : ∃ d b, c = d ++ [b] :=
    ⟨c.dropLast, c.getLast (ne_nil_of_mem ha), (dropLast_append_getLast _).symm⟩
  rw [TableBuilder.lastKey_append] at hlast
  rcases mem_append.1 ha with ha | ha
  · exact (pairwise_append.1 hcut).2.2 a ha b (mem_singleton_self b) hlast
  · rw [mem_singleton.1 ha]
    exact hlast

/-- **The index and the data blocks of a table** fit a two-level iterator. -/
theorem IsTable.blocks (h : IsTable crc R cs t) (verify : Bool)
    (hcut : ∀ target, Block.Iter.Cut compare cs.flatten target) :
    TwoLevelIterator.Blocks (t.source compare crc verify)
      (fun target e => compare e.1 target == .lt) (fun target e => compare e.1 target == .lt)
      (indexEntries crc R cs) (blockEntries crc R cs) (Block.Stands 1 (indexEntries crc R cs))
      fun handle => Block.Stands R (blockEntries crc R cs handle) where
  index := Block.iterator_follows Nat.one_pos fun target => cut_indexEntries h.ne_nil (hcut target)
  data := by
    intro e he
    obtain ⟨j, hj, -, hentries⟩ := h.mem_index he
    rw [hentries]
    exact Block.iterator_follows h.pos fun target =>
      (pairwise_flatten.1 (hcut target)).1 _ (getElem_mem hj)
  block_function := by
    intro e he
    obtain ⟨j, hj, rfl, hentries⟩ := h.mem_index he
    simp only [source]
    rw [hentries, h.blockReader_block verify (List.getElem?_eq_getElem hj)]
    exact Block.stands_newIterator (h.fits.data _ (getElem_mem hj))
  status := fun _ _ _ _ hd => hd.status
  behind := by
    intro target e he hbefore a ha
    obtain ⟨j, hj, rfl, hentries⟩ := h.mem_index he
    rw [hentries] at ha
    rw [indexEntry, getD_eq_getElem _ _ hj, beq_iff_eq] at hbefore
    rw [beq_iff_eq]
    exact before_of_lastKey ((pairwise_flatten.1 (hcut target)).1 _ (getElem_mem hj))
      hbefore ha
  ahead := by
    rw [indexEntries, pairwise_map]
    refine pairwise_lt_range.imp_of_mem fun {i j} hi hj hij target hnot a ha => ?_
    have hi : i < cs.length := mem_range.1 hi
    have hj : j < cs.length := mem_range.1 hj
    rw [h.blockEntries_eq hj] at ha
    rw [indexEntry, getD_eq_getElem _ _ hi] at hnot
    rw [beq_eq_false_iff_ne] at hnot ⊢
    have hpair := pairwise_iff_getElem.1 (pairwise_flatten.1 (hcut target)).2 i j hi hj hij
    exact fun hlt => hnot (hpair (cs[i].getLastD ([], []))
      (getLastD_mem (h.ne_nil _ (getElem_mem hi))) a ha hlt)

/-- **The iterator over a table moves over its entries.** -/
theorem IsTable.iterator_follows (h : IsTable crc R cs t) (verify : Bool)
    (hcut : ∀ target, Block.Iter.Cut compare cs.flatten target) :
    ∃ pos, (t.iterator compare crc verify).Follows (fun target e => compare e.1 target == .lt)
      cs.flatten pos ∧ pos cs.flatten.length t.newIterator := by
  have hblocks := h.blocks verify hcut
  have hsize : (indexEntries crc R cs).length + 1 < t.index_block.size := by
    have hentries := length_le_entries (indexEntries crc R cs)
    have hlen := length_blockBytes 1 (indexEntries crc R cs)
    rw [h.index_block, Block.new_blockBytes h.fits.index]
    simp only
    omega
  have hfollows := TwoLevelIterator.iterator_follows hblocks hsize
  rw [h.flatMap_index] at hfollows
  refine ⟨_, hfollows, .inr ⟨⟨(indexEntries crc R cs).length, rfl, ?_, rfl⟩,
    by rw [h.flatMap_index]⟩⟩
  simp only [newIterator]
  rw [h.index_block]
  exact Block.stands_newIterator h.fits.index

/-! ### Built files -/

/-- What the builder writes stays inside the limits of the format: blocks are shorter than 4 GiB
and offsets in the file have 64 bits. -/
def WithinLimits (crc : Bytes → UInt32) (opts : Options) (entries : List (Bytes × Bytes)) : Prop :=
  ∀ cs, build crc opts entries = tableBytes crc opts.block_restart_interval cs →
    Fits crc opts.block_restart_interval cs

theorem withinLimits_of_length_lt {opts : Options} {entries : List (Bytes × Bytes)}
    (h : (build crc opts entries).length < 2 ^ 32) : WithinLimits crc opts entries :=
  fun _ hbuild => fits_of_length_lt (hbuild ▸ h)

/-- **A table file gives back what was put in.**  The file of a strictly increasing list of entries
is accepted, a scan in either direction delivers the list, and a lookup hands over the first entry
that is not before the key. -/
theorem reads_back_built
    (htrans : ∀ a b c, compare a b = .lt → compare b c = .lt → compare a c = .lt)
    (crc : Bytes → UInt32) (opts : Options) (hrestart : 1 ≤ opts.block_restart_interval)
    (entries : List (Bytes × Bytes))
    (hsorted : entries.Pairwise fun a b => compare a.1 b.1 = .lt)
    (hlimits : WithinLimits crc opts entries) (paranoid_checks verify_checksums : Bool) :
    ∃ t, openTable crc paranoid_checks (build crc opts entries) (build crc opts entries).length =
        .ok t ∧
      (∀ fuel, entries.length ≤ fuel →
        (t.iterator compare crc verify_checksums).forward fuel t.newIterator = some entries ∧
        (t.iterator compare crc verify_checksums).backward fuel t.newIterator =
          some entries.reverse) ∧
      ∀ (σ : Type) (k : Bytes) (arg : σ) (handle_result : σ → Bytes → Bytes → σ),
        t.internalGet compare crc verify_checksums k arg handle_result =
          (match entries.find? fun e => compare e.1 k != .lt with
            | some e => handle_result arg e.1 e.2
            | none => arg, .ok) := by
  obtain ⟨cs, hcs, hbuild⟩ := build_eq crc hrestart entries
  obtain ⟨t, hopen, ht⟩ := open_tableBytes paranoid_checks hrestart hcs.ne_nil (hlimits cs hbuild)
  have hcut : ∀ target, Block.Iter.Cut compare cs.flatten target := by
    rw [hcs.flatten]
    exact Block.cut_of_sorted htrans hsorted
  refine ⟨t, by rw [hbuild]; exact hopen, fun fuel hfuel => ?_, fun σ k arg handle_result => ?_⟩
  · obtain ⟨pos, hfollows, hpos⟩ := ht.iterator_follows verify_checksums hcut
    rw [hcs.flatten] at hfollows
    exact ⟨hfollows.forward hpos hfuel, hfollows.backward hpos hfuel⟩
  · have hget := internalGet_spec ht verify_checksums (hcut k) arg handle_result
    rw [hcs.flatten] at hget
    exact hget

/-- Three entries in blocks of one or two entries. -/
theorem reads_back_built_small :
    ∃ t, openTable (fun _ => 0) true
        (build (fun _ => 0) ⟨20, 2⟩ [([1], [7]), ([2], []), ([2, 0], [5, 5])])
        (build (fun _ => 0) ⟨20, 2⟩ [([1], [7]), ([2], []), ([2, 0], [5, 5])]).length = .ok t ∧
      (t.iterator Slice.compare (fun _ => 0) false).forward 3 t.newIterator =
        some [([1], [7]), ([2], []), ([2, 0], [5, 5])] ∧
      t.internalGet Slice.compare (fun _ => 0) false [1, 9] none (fun _ k v => some (k, v)) =
        (some ([2], []), .ok) := by
  obtain ⟨t, hopen, hscan, hget⟩ := reads_back_built Slice.compare_trans (fun _ => 0) ⟨20, 2⟩
    (by decide) [([1], [7]), ([2], []), ([2, 0], [5, 5])] (by decide)
    (withinLimits_of_length_lt (by decide +kernel)) true false
  exact ⟨t, hopen, (hscan 3 (by decide)).1, hget _ [1, 9] none fun _ k v => some (k, v)⟩

/-! ### Long values -/

theorem seek_value_lt {it : Block.Iter} (target : Bytes) :
    (it.seek compare target).value_length < 2 ^ 32 := by
  have hloop : ∀ fuel (it : Block.Iter), it.value_length < 2 ^ 32 →
      (Block.Iter.seekLoop compare target fuel it).value_length < 2 ^ 32 := by
    intro fuel
    induction fuel with
    | zero => exact fun it h => h
    | succ fuel ih =>
      intro it h
      rw [Block.Iter.seekLoop]
      simp only
      split
      · exact Block.parseNextKey_value_lt h
      · exact ih _ (Block.parseNextKey_value_lt h)
  rw [Block.Iter.seek]
  split
  · exact (by decide : 0 < 2 ^ 32)
  · exact hloop _ _ (by decide : 0 < 2 ^ 32)

theorem internalGet_value_lt {verify : Bool} {k key value : Bytes} {s : Status}
    (h : t.internalGet compare crc verify k none (fun _ k v => some (k, v)) =
      (some (key, value), s)) : value.length < 2 ^ 32 := by
  rw [internalGet, getFrom] at h
  split at h
  · cases h
  · cases h
  · simp only [Bool.false_eq_true, if_false] at h
    split_ifs at h
    · split at h
      · cases h
      · cases h
      · simp only [Prod.mk.injEq] at h
        obtain ⟨h, -⟩ := h
        split_ifs at h
        cases h
        rw [Block.Iter.value, length_take]
        exact (min_le_left _ _).trans_lt (seek_value_lt k)
    · cases h

/-- **A value of 4 GiB does not come back.** -/
theorem internalGet_value_too_long :
    [(([] : Bytes), longValue)].Pairwise (fun a b => Slice.compare a.1 b.1 = .lt) ∧
      ¬ ∃ t, openTable (fun _ => 0) false (build (fun _ => 0) ⟨4096, 16⟩ [([], longValue)])
          (build (fun _ => 0) ⟨4096, 16⟩ [([], longValue)]).length = .ok t ∧
        t.internalGet Slice.compare (fun _ => 0) false [] none (fun _ k v => some (k, v)) =
          (some ([], longValue), .ok) := by
  refine ⟨pairwise_singleton _ _, ?_⟩
  rintro ⟨t, -, hget⟩
  have hlt := internalGet_value_lt hget
  rw [longValue, length_replicate] at hlt
  exact lt_irrefl _ hlt

end Table

end Bourbon
