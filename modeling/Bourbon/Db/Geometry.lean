import Bourbon.Db.Writes
import Bourbon.Table.Uniform

/-!
# The recorded block geometry

Learned reads compute where an entry stands from three process-wide numbers.  `FillData` records
them once, from the first data block of the file that is learned first, and they are used for all
files.  `entryStart` is where the builder really puts an entry.

* `prefix_drop_entryStart` : the entry does stand there in the finished file;
* `geometryFits_iff` : the recorded numbers are right for all learned files exactly if all entries
  are of one kind, and the first file fills a block or is the longest.
-/

namespace Bourbon

open List

open TableBuilder

/-- The file position of entry `p`: when the builder receives it, what it has written and what it
holds in the current block. -/
def entryStart (crc : Bytes → UInt32) (opts : Options) (entries : List (Bytes × Bytes)) (p : ℕ) :
    ℕ :=
  let r := (entries.take p).foldl (fun r e => r.add crc opts e.1 e.2) TableBuilder.new
  r.offset + r.data_block.buffer.length

/-- The geometry is right for a file: every entry starts where it says, and has the size it says. -/
def GeometryFits (crc : Bytes → UInt32) (opts : Options) (g : BlockGeometry)
    (entries : List (Bytes × Bytes)) : Prop :=
  ∀ p, ∀ hp : p < entries.length,
    entryStart crc opts entries p =
      p / g.block_num_entries * g.block_size + p % g.block_num_entries * g.entry_size ∧
    (encodeEntry entries[p]).length = g.entry_size

/-- `FillData` for one file after the other, each with a fresh model: the geometry afterwards. -/
def fillAll (crc : Bytes → UInt32) (verify_checksums : Bool) (file_model_error : ℕ)
    (tables : List Table) (g : BlockGeometry) : Option BlockGeometry :=
  tables.foldlM (fun g t => (t.fillData crc verify_checksums
    (LearnedIndexData.new file_model_error file_model_error false) g).map Prod.snd) g

section

variable {crc : Bytes → UInt32} {opts : Options}

/-! ### Where entries stand -/

theorem file_addIndexEntry (r : TableBuilder) :
    r.addIndexEntry.file = r.file ∧ r.addIndexEntry.data_block = r.data_block := by
  rw [addIndexEntry]
  split_ifs <;> exact ⟨rfl, rfl⟩

theorem prefix_flush (r : TableBuilder) :
    r.file ++ r.data_block.buffer <+: (r.flush crc).file := by
  rw [flush]
  split_ifs with hnil
  · simp only [hnil, append_nil, prefix_rfl]
  · refine (prefix_append_right_inj _).2 ?_
    rw [storedBlock, BlockBuilder.finish, append_assoc, append_assoc]
    exact prefix_append _ _

theorem prefix_add (r : TableBuilder) (e : Bytes × Bytes) :
    r.file ++ r.data_block.buffer ++ encodeEntry e <+:
      (r.add crc opts e.1 e.2).file ++ (r.add crc opts e.1 e.2).data_block.buffer := by
  obtain ⟨hfile, hblock⟩ := file_addIndexEntry r
  obtain ⟨r', hr', hadd⟩ := exists_add crc opts r e
  have hbytes : r'.file ++ r'.data_block.buffer =
      r.file ++ r.data_block.buffer ++ encodeEntry e := by
    rw [hr', append_assoc]
    simp only [hfile, hblock, BlockBuilder.add, drop_zero, Nat.sub_zero, encodeEntry]
  rw [hadd, ← hbytes]
  split_ifs
  · exact (prefix_flush r').trans (prefix_append _ _)
  · exact prefix_refl _

theorem prefix_addAll (r : TableBuilder) (entries : List (Bytes × Bytes)) :
    r.file ++ r.data_block.buffer <+:
      (entries.foldl (fun r e => r.add crc opts e.1 e.2) r).file ++
        (entries.foldl (fun r e => r.add crc opts e.1 e.2) r).data_block.buffer := by
  induction entries generalizing r with
  | nil => exact prefix_refl _
  | cons e entries ih =>
    exact ((prefix_append _ (encodeEntry e)).trans (prefix_add r e)).trans (ih _)

theorem prefix_finish (r : TableBuilder) :
    r.file ++ r.data_block.buffer <+: r.finish crc := by
  have hflush : r.file ++ r.data_block.buffer <+: (r.flush crc).file := prefix_flush r
  refine hflush.trans ?_
  rw [finish]
  simp only [writeRawBlock, (file_addIndexEntry _).1, append_assoc]
  exact prefix_append _ _

/-- **The bytes of entry `p` stand at `entryStart`** in the finished file. -/
theorem prefix_drop_entryStart (crc : Bytes → UInt32) (hR : 0 < opts.block_restart_interval)
    {entries : List (Bytes × Bytes)} {p : ℕ} (hp : p < entries.length) :
    encodeEntry entries[p] <+: (build crc opts entries).drop (entryStart crc opts entries p) := by
  obtain ⟨r, hr⟩ : ∃ r, r = (entries.take p).foldl (fun r e => r.add crc opts e.1 e.2)
      TableBuilder.new := ⟨_, rfl⟩
  obtain ⟨cs, cur, hinv, -⟩ := inv_addAll crc hR (entries.take p)
  rw [← hr] at hinv
  have hbuild : build crc opts entries = ((entries.drop (p + 1)).foldl
      (fun r e => r.add crc opts e.1 e.2)
      (r.add crc opts entries[p].1 entries[p].2)).finish crc := by
    rw [build]
    conv_lhs => rw [← take_append_drop p entries, drop_eq_getElem_cons hp]
    rw [foldl_append, ← hr, foldl_cons]
  obtain ⟨rest, hrest⟩ : r.file ++ r.data_block.buffer ++ encodeEntry entries[p] <+:
      build crc opts entries := by
    rw [hbuild]
    exact ((prefix_add r _).trans (prefix_addAll _ _)).trans (prefix_finish _)
  have hstart : entryStart crc opts entries p = (r.file ++ r.data_block.buffer).length := by
    rw [entryStart, ← hr, length_append, hinv.offset]
  rw [hstart, ← hrest, append_assoc, drop_left]
  exact prefix_append _ _

/-- The blocks written and the block held when the builder receives entry `p`. -/
theorem entryStart_eq (crc : Bytes → UInt32) (hR : 0 < opts.block_restart_interval)
    (entries : List (Bytes × Bytes)) (p : ℕ) :
    ∃ (cs : List (List (Bytes × Bytes))) (cur : List (Bytes × Bytes)),
      entryStart crc opts entries p =
        (cs.flatMap (dataBlock crc opts.block_restart_interval)).length +
          (cur.flatMap encodeEntry).length ∧
      cs.flatten ++ cur = entries.take p ∧ (∀ c ∈ cs, Full opts c) ∧ Below opts cur := by
  obtain ⟨cs, cur, hinv, hflat⟩ := inv_addAll crc hR (entries.take p)
  refine ⟨cs, cur, ?_, hflat, hinv.full, hinv.below⟩
  rw [entryStart, hinv.offset, hinv.file, hinv.data_block.buffer]

/-! ### Entries of one size -/

section

variable {E : ℕ} {c₀ entries : List (Bytes × Bytes)} {p : ℕ}

theorem entry_of_take {cs : List (List (Bytes × Bytes))} {cur : List (Bytes × Bytes)}
    (hE : ∀ e ∈ entries, (encodeEntry e).length = E) (hflat : cs.flatten ++ cur = entries.take p) :
    (∀ c ∈ cs, ∀ e ∈ c, (encodeEntry e).length = E) ∧ ∀ e ∈ cur, (encodeEntry e).length = E := by
  have hmem : ∀ e ∈ cs.flatten ++ cur, (encodeEntry e).length = E := by
    intro e he
    rw [hflat] at he
    exact hE e (mem_of_mem_take he)
  exact ⟨fun c hc e he => hmem e (mem_append_left _ (mem_flatten.2 ⟨c, hc, he⟩)),
    fun e he => hmem e (mem_append_right _ he)⟩

/-- If a full block has the length of `c₀`, positions follow by division by that length. -/
theorem entryStart_of_full (hR : 0 < opts.block_restart_interval)
    (hE : ∀ e ∈ entries, (encodeEntry e).length = E) (hE₀ : ∀ e ∈ c₀, (encodeEntry e).length = E)
    (hfull : Full opts c₀) (hp : p ≤ entries.length) :
    entryStart crc opts entries p = p / c₀.length *
      ((blockBytes opts.block_restart_interval c₀).length + kBlockTrailerSize) +
        p % c₀.length * E := by
  obtain ⟨cs, cur, heq, hflat, hcs, hcur⟩ := entryStart_eq crc hR entries p
  obtain ⟨hEcs, hEcur⟩ := entry_of_take hE hflat
  have hlen : ∀ c ∈ cs, c.length = c₀.length := fun c hc =>
    (hcs c hc).length_eq hfull (hEcs c hc) hE₀
  have hlt : cur.length < c₀.length := hcur.length_lt hfull hEcur hE₀
  -- `p` is the number of entries written and held
  have hcount : p = cs.length * c₀.length + cur.length := by
    have := congrArg List.length hflat
    rw [length_append, ← flatMap_id, Pieces.length_uniform (f := id) hlen, length_take,
      Nat.min_eq_left hp] at this
    exact this.symm
  have hdiv : p / c₀.length = cs.length := by
    rw [hcount, Nat.add_comm, Nat.add_mul_div_right _ _ (by omega), Nat.div_eq_of_lt hlt,
      Nat.zero_add]
  have hmod : p % c₀.length = cur.length := by
    rw [hcount, Nat.add_comm, Nat.add_mul_mod_self_right, Nat.mod_eq_of_lt hlt]
  have hblock : ∀ c ∈ cs, (dataBlock crc opts.block_restart_interval c).length =
      (blockBytes opts.block_restart_interval c₀).length + kBlockTrailerSize := by
    intro c hc
    rw [dataBlock, length_storedBlock, length_blockBytes_uniform _ (hEcs c hc), hlen c hc,
      length_blockBytes_uniform _ hE₀]
  rw [heq, Pieces.length_uniform hblock, Pieces.length_uniform hEcur, hdiv, hmod]

/-- Up to the length of a block that is not full, all entries stand in the first block. -/
theorem entryStart_of_below (hR : 0 < opts.block_restart_interval)
    (hE : ∀ e ∈ entries, (encodeEntry e).length = E) (hE₀ : ∀ e ∈ c₀, (encodeEntry e).length = E)
    (hbelow : Below opts c₀) (hp : p ≤ entries.length) (hp₀ : p ≤ c₀.length) :
    entryStart crc opts entries p = p * E := by
  obtain ⟨cs, cur, heq, hflat, hcs, -⟩ := entryStart_eq crc hR entries p
  obtain ⟨hEcs, hEcur⟩ := entry_of_take hE hflat
  have hlen := congrArg List.length hflat
  rw [length_append, length_take, Nat.min_eq_left hp] at hlen
  cases cs with
  | nil =>
    rw [flatten_nil, length_nil, Nat.zero_add] at hlen
    rw [heq, flatMap_nil, length_nil, Nat.zero_add, Pieces.length_uniform hEcur, hlen]
  | cons c cs =>
    -- a full block would be longer than `c₀`
    have hc : c ∈ c :: cs := mem_cons_self
    have hlt := hbelow.length_lt (hcs c hc) hE₀ (hEcs c hc)
    rw [flatten_cons, length_append] at hlen
    omega

end

/-! ### The entries the database writes -/

/-- The size of an entry without its value. -/
def headerSize (w : ℕ) : ℕ := 2 + (encodeVarint32 ((w + 8) % 2 ^ 32)).length + (w + 8)

theorem Written.length_encodeEntry {w : ℕ} {es : List (InternalKey Bytes × Bytes)}
    (h : Written w es) {e : InternalKey Bytes × Bytes} (he : e ∈ es) :
    (encodeEntry (e.1.encode, e.2)).length =
      headerSize w + if e.1.type = .value then 12 else 0 := by
  have hkey : e.1.encode.length = w + 8 := by rw [InternalKey.length_encode, h.key e he]
  have hzero : (encodeVarint32 0).length = 1 := by decide
  have hvalue : (encodeVarint32 (e.2.length % 2 ^ 32)).length = 1 := by
    rw [h.value e he]
    split_ifs <;> decide
  simp only [encodeEntry, length_append, hkey, hzero, hvalue]
  rw [h.value e he, headerSize]
  omega

theorem Written.length_eq_iff {w : ℕ} {es es' : List (InternalKey Bytes × Bytes)}
    (h : Written w es) (h' : Written w es') {e e' : InternalKey Bytes × Bytes} (he : e ∈ es)
    (he' : e' ∈ es') :
    (encodeEntry (e.1.encode, e.2)).length = (encodeEntry (e'.1.encode, e'.2)).length ↔
      e.1.type = e'.1.type := by
  rw [h.length_encodeEntry he, h'.length_encodeEntry he']
  cases e.1.type <;> cases e'.1.type <;> simp

/-! ### The recorded numbers -/

section

variable {w : ℕ} {es : List (InternalKey Bytes × Bytes)} {t : Table}

/-- Filling the data of a file records the geometry of its first block, unless one is recorded. -/
theorem fillData_geometry (h : Table.Opened crc opts (encodeEntries es) t) (hw : Written w es)
    (verify : Bool) (file_model_error : ℕ) (g : BlockGeometry) :
    ∃ c₀ cs, Chunking opts (encodeEntries es) (c₀ :: cs) ∧
      (t.fillData crc verify (LearnedIndexData.new file_model_error file_model_error false) g).map
        Prod.snd = some (Table.recordGeometry opts.block_restart_interval g c₀) := by
  obtain ⟨cs, ht, hcs⟩ := h.layout
  have hlong : ∀ e ∈ cs.flatten, 8 ≤ e.1.length := by
    intro e he
    rw [hcs.flatten] at he
    obtain ⟨x, -, rfl⟩ := mem_map.1 he
    rw [InternalKey.length_encode]
    omega
  cases cs with
  | nil => exact absurd (map_eq_nil_iff.1 hcs.flatten.symm) hw.ne_nil
  | cons c₀ cs =>
    refine ⟨c₀, cs, hcs, ?_⟩
    have hrec : (Table.recordGeometry opts.block_restart_interval g c₀).block_num_entries_recorded =
        true := by
      rw [Table.recordGeometry]
      split_ifs with hg
      · exact hg
      · rfl
    rw [Table.fillData_spec ht verify (cons_ne_nil _ _) hlong rfl, Option.map_some,
      foldl_cons (f := Table.recordGeometry opts.block_restart_interval),
      Table.foldl_recordGeometry cs hrec]

theorem fillAll_recorded {files : List (List (InternalKey Bytes × Bytes))} {tables : List Table}
    (hopen : List.Forall₂ (fun es t => Table.Opened crc opts (encodeEntries es) t) files tables)
    (hw : ∀ es ∈ files, Written w es) (verify : Bool) (file_model_error : ℕ) {g : BlockGeometry}
    (hg : g.block_num_entries_recorded = true) :
    fillAll crc verify file_model_error tables g = some g := by
  induction hopen with
  | nil => rfl
  | @cons es t files tables h _ ih =>
    obtain ⟨c₀, cs, -, hfill⟩ := fillData_geometry h (hw es mem_cons_self) verify
      file_model_error g
    rw [Table.recordGeometry, if_pos hg] at hfill
    rw [fillAll, foldlM_cons, hfill]
    exact ih fun es' hes' => hw es' (mem_cons_of_mem es hes')

end

/-! ### When the recorded geometry is right -/

section

variable {w E : ℕ} {files : List (List (InternalKey Bytes × Bytes))}
  {es : List (InternalKey Bytes × Bytes)} {c₀ : List (Bytes × Bytes)}
  {cs : List (List (Bytes × Bytes))}

theorem entry_encodeEntries (hE : ∀ e ∈ es, (encodeEntry (e.1.encode, e.2)).length = E) :
    ∀ e ∈ encodeEntries es, (encodeEntry e).length = E := by
  intro e he
  obtain ⟨x, hx, rfl⟩ := mem_map.1 he
  exact hE x hx

theorem Chunking.below_iff {entries : List (Bytes × Bytes)} (h : Chunking opts entries (c₀ :: cs))
    (hE : ∀ e ∈ entries, (encodeEntry e).length = E) :
    (opts.block_size ≤ (blockBytes opts.block_restart_interval entries).length → Full opts c₀) ∧
      ((blockBytes opts.block_restart_interval entries).length < opts.block_size →
        Below opts c₀ ∧ c₀ = entries) := by
  have hc₀ : c₀ ∈ c₀ :: cs := mem_cons_self
  have hflat := h.flatten
  have hE₀ : ∀ e ∈ c₀, (encodeEntry e).length = E := fun e he =>
    hE e (hflat ▸ mem_flatten.2 ⟨c₀, hc₀, he⟩)
  constructor
  · intro hsize
    rcases h.last c₀ hc₀ with hfull | hbelow
    · exact hfull
    · cases cs with
      | nil =>
        rw [flatten_cons, flatten_nil, append_nil] at hflat
        have := hbelow c₀ (prefix_refl _) (h.ne_nil c₀ hc₀)
        rw [hflat] at this
        omega
      | cons c₁ cs => exact h.full c₀ (by simp)
  · intro hsize
    have hnot : ¬ Full opts c₀ := by
      rintro ⟨d, e, -, -, hle⟩
      have hlen : c₀.length ≤ entries.length := by
        rw [← hflat, flatten_cons, length_append]; omega
      have hmul := Nat.mul_le_mul_right E hlen
      have hcount : restartCount opts.block_restart_interval c₀.length ≤
          restartCount opts.block_restart_interval entries.length := by
        rw [restartCount, restartCount]
        exact Nat.succ_le_succ (Nat.div_le_div_right (by omega))
      rw [length_blockBytes_uniform _ hE₀] at hle
      rw [length_blockBytes_uniform _ hE] at hsize
      omega
    refine ⟨(h.last c₀ hc₀).resolve_left hnot, ?_⟩
    cases cs with
    | nil => rw [← hflat, flatten_cons, flatten_nil, append_nil]
    | cons c₁ cs => exact absurd (h.full c₀ (by simp)) hnot

variable {es₁ : List (InternalKey Bytes × Bytes)}

/-- With entries of one size, the geometry of the first file is right for a file if the first file
fills a block or is not shorter. -/
theorem geometryFits_of_uniform (hR : 0 < opts.block_restart_interval)
    (hcs : Chunking opts (encodeEntries es₁) (c₀ :: cs))
    (hE₁ : ∀ e ∈ encodeEntries es₁, (encodeEntry e).length = E)
    (hE : ∀ e ∈ encodeEntries es, (encodeEntry e).length = E)
    (hcond : opts.block_size ≤
        (blockBytes opts.block_restart_interval (encodeEntries es₁)).length ∨
      es.length ≤ es₁.length) :
    GeometryFits crc opts (geometryOf opts.block_restart_interval E c₀) (encodeEntries es) := by
  have hE₀ : ∀ e ∈ c₀, (encodeEntry e).length = E := fun e he =>
    hE₁ e (hcs.flatten ▸ mem_flatten.2 ⟨c₀, mem_cons_self, he⟩)
  obtain ⟨hfull, hbelow⟩ := hcs.below_iff hE₁
  intro p hp
  refine ⟨?_, hE _ (getElem_mem hp)⟩
  rcases Nat.lt_or_ge (blockBytes opts.block_restart_interval (encodeEntries es₁)).length
    opts.block_size with hshort | hlong
  · -- all files fit into one block
    obtain ⟨hc₀, heq⟩ := hbelow hshort
    have hlen := hcond.resolve_left (not_le.2 hshort)
    have hp₀ : p < c₀.length := by
      rw [heq, length_encodeEntries]
      rw [length_encodeEntries] at hp
      omega
    rw [entryStart_of_below hR hE hE₀ hc₀ hp.le hp₀.le]
    simp only [geometryOf, Nat.div_eq_of_lt hp₀, Nat.mod_eq_of_lt hp₀, Nat.zero_mul, Nat.zero_add]
  · exact entryStart_of_full hR hE hE₀ (hfull hlong) hp.le

/-- If the first file does not fill a block, its geometry is wrong for every longer file: it puts
the entry behind the last position of the first file into a second block. -/
theorem GeometryFits.length_le (hR : 0 < opts.block_restart_interval)
    (hcs : Chunking opts (encodeEntries es₁) (c₀ :: cs))
    (hE₁ : ∀ e ∈ encodeEntries es₁, (encodeEntry e).length = E)
    (hE : ∀ e ∈ encodeEntries es, (encodeEntry e).length = E)
    (hshort : (blockBytes opts.block_restart_interval (encodeEntries es₁)).length <
      opts.block_size)
    (h : GeometryFits crc opts (geometryOf opts.block_restart_interval E c₀) (encodeEntries es)) :
    es.length ≤ es₁.length := by
  obtain ⟨hc₀, heq⟩ := (hcs.below_iff hE₁).2 hshort
  have hpos : 0 < c₀.length := length_pos_iff.2 (hcs.ne_nil c₀ mem_cons_self)
  have hlen : c₀.length = es₁.length := by rw [heq, length_encodeEntries]
  by_contra hlt
  have hp : c₀.length < (encodeEntries es).length := by rw [length_encodeEntries]; omega
  obtain ⟨hstart, -⟩ := h c₀.length hp
  rw [entryStart_of_below hR hE (heq ▸ hE₁) hc₀ hp.le le_rfl] at hstart
  simp only [geometryOf, Nat.div_self hpos, Nat.mod_self, Nat.one_mul, Nat.zero_mul,
    Nat.add_zero] at hstart
  rw [length_blockBytes_uniform _ (heq ▸ hE₁)] at hstart
  omega

/-- **When the recorded block geometry is right.**  Learn files that the database wrote one after
the other, `es₁` first.  The recorded numbers are right for all of them exactly if all entries are
of one kind, and the first file fills a data block or no file has more entries than it. -/
theorem geometryFits_iff (crc : Bytes → UInt32) (opts : Options) (w file_model_error : ℕ)
    (verify : Bool) (es₁ : List (InternalKey Bytes × Bytes))
    (files : List (List (InternalKey Bytes × Bytes))) (tables : List Table) (g₀ : BlockGeometry)
    (hw : ∀ es ∈ es₁ :: files, Written w es)
    (hopen : List.Forall₂ (fun es t => Table.Opened crc opts (encodeEntries es) t) (es₁ :: files)
      tables) (hg : g₀.block_num_entries_recorded = false) :
    ∃ g, fillAll crc verify file_model_error tables g₀ = some g ∧
      ((∀ es ∈ es₁ :: files, GeometryFits crc opts g (encodeEntries es)) ↔
        (∃ type, ∀ es ∈ es₁ :: files, ∀ e ∈ es, e.1.type = type) ∧
        (opts.block_size ≤
            (blockBytes opts.block_restart_interval (encodeEntries es₁)).length ∨
          ∀ es ∈ files, es.length ≤ es₁.length)) := by
  cases hopen with
  | @cons _ t _ tables h₁ hrest =>
  have hw₁ : Written w es₁ := hw es₁ mem_cons_self
  obtain ⟨c₀, cs, hcs, hfill⟩ := fillData_geometry h₁ hw₁ verify file_model_error g₀
  have hpos : 0 < c₀.length := length_pos_iff.2 (hcs.ne_nil c₀ mem_cons_self)
  -- for entries of one size, the recorded geometry is the one of that size
  have hrec : ∀ {E}, (∀ e ∈ encodeEntries es₁, (encodeEntry e).length = E) →
      Table.recordGeometry opts.block_restart_interval g₀ c₀ =
        geometryOf opts.block_restart_interval E c₀ := fun hE =>
    recordGeometry_uniform hpos (fun e he =>
      hE e (hcs.flatten ▸ mem_flatten.2 ⟨c₀, mem_cons_self, he⟩)) hg
  obtain ⟨g, hgdef⟩ : ∃ g, g = Table.recordGeometry opts.block_restart_interval g₀ c₀ := ⟨_, rfl⟩
  rw [← hgdef] at hrec hfill
  have hgrec : g.block_num_entries_recorded = true := by
    rw [hgdef, Table.recordGeometry, hg]; rfl
  refine ⟨g, ?_, ?_, ?_⟩
  · rw [fillAll, foldlM_cons, hfill]
    exact fillAll_recorded hrest (fun es hes => hw es (mem_cons_of_mem es₁ hes)) verify
      file_model_error hgrec
  · intro hfits
    have hE : ∀ es ∈ es₁ :: files, ∀ e ∈ encodeEntries es,
        (encodeEntry e).length = g.entry_size := by
      intro es hes e he
      obtain ⟨p, hp, rfl⟩ := getElem_of_mem he
      exact (hfits es hes p hp).2
    have hE' : ∀ es ∈ es₁ :: files, ∀ e ∈ es,
        (encodeEntry (e.1.encode, e.2)).length = g.entry_size := fun es hes e he =>
      hE es hes _ (mem_map.2 ⟨e, he, rfl⟩)
    refine ⟨?_, ?_⟩
    · obtain ⟨e₁, he₁⟩ := exists_mem_of_ne_nil es₁ hw₁.ne_nil
      refine ⟨e₁.1.type, fun es hes e he => ?_⟩
      refine ((hw es hes).length_eq_iff hw₁ he he₁).1 ?_
      rw [hE' es hes e he, hE' es₁ mem_cons_self e₁ he₁]
    · by_cases hlong : opts.block_size ≤
          (blockBytes opts.block_restart_interval (encodeEntries es₁)).length
      · exact Or.inl hlong
      · refine Or.inr fun es hes => ?_
        have hes' := mem_cons_of_mem es₁ hes
        have hfit := hfits es hes'
        rw [hrec (hE es₁ mem_cons_self)] at hfit
        exact hfit.length_le h₁.restart hcs (hE es₁ mem_cons_self) (hE es hes')
          (not_le.1 hlong)
  · rintro ⟨⟨type, htype⟩, hcond⟩ es hes
    have hE : ∀ es ∈ es₁ :: files, ∀ e ∈ encodeEntries es,
        (encodeEntry e).length = headerSize w + if type = .value then 12 else 0 := fun es hes =>
      entry_encodeEntries fun e he => by
        rw [(hw es hes).length_encodeEntry he, htype es hes e he]
    rw [hrec (hE es₁ mem_cons_self)]
    refine geometryFits_of_uniform h₁.restart hcs (hE es₁ mem_cons_self) (hE es hes) ?_
    rcases mem_cons.1 hes with rfl | hes
    · exact Or.inr le_rfl
    · exact hcond.imp_right fun hlen => hlen es hes

end

end

/-! A database whose first flush finds one entry in the memtable and whose second flush finds
two. -/

namespace TwoFlushes

/-- Every entry is a restart point. -/
def opts : Options := ⟨4096, 1⟩

/-- `Put` of `1`, flush, `Put` of `2` and `3`, flush. -/
def files : List (List (InternalKey Bytes × Bytes)) :=
  WriteState.flushes ⟨⟨[], 0, []⟩, 0, []⟩
    [[.put [49] [97]], [.put [50] [98], .put [51] [99]]]

/-- The entry of the first file. -/
def first : List (InternalKey Bytes × Bytes) :=
  [(⟨[49], 1, .value⟩, encodeFixed64 3 ++ encodeFixed32 1)]

/-- The entries of the second file. -/
def second : List (InternalKey Bytes × Bytes) :=
  [(⟨[50], 2, .value⟩, encodeFixed64 7 ++ encodeFixed32 1),
    (⟨[51], 3, .value⟩, encodeFixed64 11 ++ encodeFixed32 1)]

/-- The table of a file, with the contents of its index block. -/
def table (entries : List (InternalKey Bytes × Bytes)) (index : Bytes) : Table :=
  ⟨build zeroCrc opts (encodeEntries entries), Block.new index⟩

/-- The first file, opened. -/
def firstTable : Table :=
  table first [0, 9, 2, 49, 1, 1, 0, 0, 0, 0, 0, 0, 0, 32, 0, 0, 0, 0, 1, 0, 0, 0]

/-- The second file, opened. -/
def secondTable : Table :=
  table second [0, 9, 2, 51, 1, 3, 0, 0, 0, 0, 0, 0, 0, 60, 0, 0, 0, 0, 1, 0, 0, 0]

theorem files_eq : files = [first, second] := by decide +kernel

theorem opened_first : Table.Opened zeroCrc opts (encodeEntries first) firstTable :=
  ⟨by decide, fun cs hcs => Table.fits_of_length_lt (by rw [← hcs]; decide +kernel),
    ⟨true, by decide +kernel⟩⟩

theorem opened_second : Table.Opened zeroCrc opts (encodeEntries second) secondTable :=
  ⟨by decide, fun cs hcs => Table.fits_of_length_lt (by rw [← hcs]; decide +kernel),
    ⟨true, by decide +kernel⟩⟩

theorem written : ∀ es ∈ [first, second], Written 1 es := by
  rw [← files_eq]
  exact WriteState.written_flushes (fun e he => by cases he) (by decide)

end TwoFlushes

open TwoFlushes in
/-- Learning the two files in the order they were written records one entry of 24 bytes in a block
of 37.  The second entry of the second file starts at byte 24, not at byte 37. -/
theorem geometry_misses_second_file :
    files = [first, second] ∧ Table.Opened zeroCrc opts (encodeEntries first) firstTable ∧
      Table.Opened zeroCrc opts (encodeEntries second) secondTable ∧
      fillAll zeroCrc true 8 [firstTable, secondTable] ⟨0, 0, 0, false⟩ = some ⟨1, 37, 24, true⟩ ∧
      entryStart zeroCrc opts (encodeEntries second) 1 = 24 ∧
      ¬ GeometryFits zeroCrc opts ⟨1, 37, 24, true⟩ (encodeEntries second) := by
  have hstart : entryStart zeroCrc opts (encodeEntries second) 1 = 24 := by decide +kernel
  refine ⟨files_eq, opened_first, opened_second, by decide +kernel, hstart, fun hfits => ?_⟩
  obtain ⟨hcomputed, -⟩ := hfits 1 (by decide)
  rw [hstart] at hcomputed
  revert hcomputed
  decide

open TwoFlushes in
/-- The condition at these two files. -/
theorem geometryFits_iff_two_flushes :
    (∀ es ∈ [first, second], Written 1 es) ∧
      ∃ g, fillAll zeroCrc true 8 [firstTable, secondTable] ⟨0, 0, 0, false⟩ = some g ∧
        ((∀ es ∈ [first, second], GeometryFits zeroCrc opts g (encodeEntries es)) ↔
          (∃ type, ∀ es ∈ [first, second], ∀ e ∈ es, e.1.type = type) ∧
          (opts.block_size ≤
              (blockBytes opts.block_restart_interval (encodeEntries first)).length ∨
            ∀ es ∈ [second], es.length ≤ first.length)) :=
  ⟨written, geometryFits_iff zeroCrc opts 1 8 true first [second] [firstTable, secondTable] _
    written
    (.cons opened_first (.cons opened_second .nil)) rfl⟩

end Bourbon
