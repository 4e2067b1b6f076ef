import Bourbon.Db.TableCache
import Bourbon.Db.VersionGet
import Bourbon.Util.CacheRuns

/-!
# Lookups through the table cache

`TableCache::Get` as a whole: the cache of open tables with its handles, files whose reads can
fail, filters, and the choice between the baseline and the learned read path.  A lookup takes a
handle of the table from the cache (`FindTable`) and has to give it back.  Assertions are compiled
out: what they would stop goes on with the bytes that stand in memory, or has no defined result.

* `TableCache.findTable_spec` : `FindTable` fails and takes nothing, or takes one reference;
* `TableCache.baseline_eq`, `TableCache.levelRead_eq` : with files that can be read and without
  filters, the two paths are `tableCacheGet` and `levelRead`, whatever the cache holds;
* `TableCache.get_keeps_references_iff` : a lookup gives its handle back unless the file model
  excludes the key;
* `TableCache.not_reportsErrors` : the learned path reports no error.
-/

namespace Bourbon

open List Function
open Option hiding map_bind

/-- `RandomAccessFile`: a read returns bytes, possibly fewer than asked for, or fails. -/
structure RandomAccessFile where
  read : ℕ → ℕ → Except Status Bytes
  /-- What stands at the address of the result, up to the number of bytes asked for; behind a read
  that fails or is short, that is anything. -/
  memory : ℕ → ℕ → Bytes
  memory_read : ∀ {offset n bytes}, read offset n = .ok bytes → bytes <+: memory offset n

/-- A file that can be read. -/
def RandomAccessFile.ofBytes (file : Bytes) : RandomAccessFile where
  read := readFile file
  memory offset n := (readFile file offset n).toOption.getD []
  memory_read h := by rw [h]; exact List.prefix_rfl

/-- A value of the table cache: the file, and the index block and the filter of its table.  The
filter is `KeyMayMatch`. -/
structure TableAndFile where
  file : RandomAccessFile
  index_block : Block
  filter : Option (ℕ → Bytes → Bool)

/-- What a table cache is created with, and the files it finds. -/
structure TableEnv where
  crc : Bytes → UInt32
  paranoid_checks : Bool
  verify_checksums : Bool
  /-- The hash of an encoded file number. -/
  hash : ℕ → ℕ
  /-- `NewRandomAccessFile` of `TableFileName`. -/
  tableFile : ℕ → Except Status RandomAccessFile
  /-- `NewRandomAccessFile` of `SSTTableFileName`. -/
  sstTableFile : ℕ → Except Status RandomAccessFile
  /-- The filter that `ReadMeta` finds. -/
  readMeta : RandomAccessFile → Footer → Option (ℕ → Bytes → Bool)

/-- How a lookup ends if it has no defined result. -/
inductive Fault where
  /-- The value of a null handle is used. -/
  | nullHandle
  /-- The key of an entry is a null pointer. -/
  | nullKey
  /-- Other undefined behaviour. -/
  | undefined
  deriving DecidableEq

/-- A step that fails with the given fault. -/
def Fault.unless {α : Type*} (fault : Fault) : Option α → Except Fault α
  | none => .error fault
  | some a => .ok a

/-- The references of clients, by the reference count of a handle. -/
def LRUCache.clientRefs {K V : Type*} (s : LRUCache K V) (e : ℕ) : ℕ :=
  match s.heap e with
  | none => 0
  | some h => h.refs - if h.in_cache then 1 else 0

namespace TableAndFile

/-- `Table::Open`. -/
def openTable (env : TableEnv) (file : RandomAccessFile) (size : ℕ) : Except Status TableAndFile :=
  (Table.openIndex env.crc env.paranoid_checks file.read size).map fun p =>
    ⟨file, p.2, env.readMeta file p.1⟩

/-- The filter excludes the key from the block at an offset. -/
def rejects (t : TableAndFile) (offset : ℕ) (k : Bytes) : Bool :=
  t.filter.any fun keyMayMatch => !keyMayMatch offset k

/-- `Table::InternalGet`. -/
def internalGet {σ : Type} (env : TableEnv) (t : TableAndFile) (k : Bytes) (arg : σ)
    (handle_result : σ → Bytes → Bytes → σ) : σ × Status :=
  Table.getFrom InternalKeyComparator.compare t.index_block
    (fun index_value => (BlockHandle.decodeFrom index_value).any fun p => t.rejects p.1.offset k)
    (Table.blockReader env.crc env.verify_checksums t.file.read) k arg handle_result

/-- `LevelRead` from the filter on: the argument of the handler afterwards. -/
def readEntries {σ : Type} (t : TableAndFile) (g : BlockGeometry) (k : Bytes) (arg : σ)
    (handle_result : σ → Bytes → Bytes → σ) (i pos_block_lower pos_block_upper : ℕ) :
    Except Fault σ :=
  if t.rejects (i * g.block_size) k then .ok arg
  else
    -- the status of the read is not looked at
    let entries := t.file.memory (i * g.block_size + pos_block_lower * g.entry_size)
      (readSize g pos_block_lower pos_block_upper)
    (Fault.nullKey.unless (bisectEntries entryUnchecked InternalKeyComparator.compare g k entries
      pos_block_lower pos_block_upper)).map fun entry => handle_result arg entry.1 entry.2

end TableAndFile

/-- The arguments of a lookup in the table cache: the file, the encoded key and, if `learned`, the
interval of a level model. -/
structure TableLookup where
  file_number : ℕ
  file_size : ℕ
  k : Bytes
  lower : ℕ
  upper : ℕ
  learned : Bool

namespace TableCache

/-- The lookup takes the learned read path. -/
def Learned (MOD : ℕ) (model : LearnedIndexData) (q : TableLookup) : Prop :=
  (MOD = 6 ∨ MOD = 7 ∨ MOD = 9) ∧ (q.learned || model.learned) = true

instance (MOD : ℕ) (model : LearnedIndexData) (q : TableLookup) :
    Decidable (Learned MOD model q) :=
  inferInstanceAs (Decidable (_ ∧ _))

section

variable (env : TableEnv)

/-- The part of `FindTable` behind a lookup without result. -/
def openFile (file_number file_size : ℕ) : Except Status TableAndFile :=
  match env.tableFile file_number with
  | .ok file => TableAndFile.openTable env file file_size
  | .error s =>
    match env.sstTableFile file_number with
    | .ok file => TableAndFile.openTable env file file_size
    | .error _ => .error s

/-- `FindTable`: the cache, and the handle or the status. -/
def findTable (s : LRUCache ℕ TableAndFile) (file_number file_size : ℕ) :
    Except Fault (LRUCache ℕ TableAndFile × Except Status ℕ) :=
  match s.lookup file_number (env.hash file_number) with
  | none => .error .undefined
  | some (s, some handle) => .ok (s, .ok handle)
  | some (s, none) =>
    match openFile env file_number file_size with
    | .error status => .ok (s, .error status)
    | .ok tf =>
      (Fault.undefined.unless (s.insert file_number (env.hash file_number) tf 1)).map fun p =>
        (p.1, .ok p.2)

/-- `cache_->Value`. -/
def value (s : LRUCache ℕ TableAndFile) (handle : ℕ) : Except Fault TableAndFile :=
  Fault.undefined.unless ((s.heap handle).map LRUHandle.value)

section

variable {σ : Type} (g : BlockGeometry) (model : LearnedIndexData) (q : TableLookup) (arg : σ)
  (handle_result : σ → Bytes → Bytes → σ)

/-- `TableCache::LevelRead`. -/
def levelRead (s : LRUCache ℕ TableAndFile) : Except Fault (LRUCache ℕ TableAndFile × σ) := do
  let (s, found) ← findTable env s q.file_number q.file_size
  match found with
  | .error _ => .error .nullHandle
  | .ok cache_handle =>
    let tf ← value s cache_handle
    match ← Fault.undefined.unless (readRequest entryUnchecked InternalKeyComparator.compare
        tf.index_block g model q.k q.lower q.upper q.learned) with
    | none => .ok (s, arg)
    | some (i, pos_block_lower, pos_block_upper) =>
      let arg ← tf.readEntries g q.k arg handle_result i pos_block_lower pos_block_upper
      let s ← Fault.undefined.unless (s.release cache_handle)
      .ok (s, arg)

/-- `TableCache::Get` on the baseline path. -/
def baseline (s : LRUCache ℕ TableAndFile) :
    Except Fault (LRUCache ℕ TableAndFile × σ × Status) := do
  let (s, found) ← findTable env s q.file_number q.file_size
  match found with
  | .error status => .ok (s, arg, status)
  | .ok handle =>
    let tf ← value s handle
    let (arg, status) := tf.internalGet env q.k arg handle_result
    let s ← Fault.undefined.unless (s.release handle)
    .ok (s, arg, status)

/-- `TableCache::Get`; `model` is the model of the file. -/
def get (MOD : ℕ) (s : LRUCache ℕ TableAndFile) :
    Except Fault (LRUCache ℕ TableAndFile × σ × Status) :=
  if Learned MOD model q then
    (levelRead env g model q arg handle_result s).map fun p => (p.1, p.2, .ok)
  else baseline env q arg handle_result s

end

end

/-! ### Handles -/

section Handles

variable {env : TableEnv} {o : CacheRun ℕ TableAndFile} {cached lru in_use : List ℕ}
  {s : LRUCache ℕ TableAndFile} {n size handle : ℕ}

theorem clientRefs_eq (h : CacheRun.Sound env.hash o cached lru in_use) (e : ℕ) :
    o.cache.clientRefs e = o.held e := by
  rw [LRUCache.clientRefs]
  cases he : o.cache.heap e with
  | none => exact (h.keeps.handles.free e he).symm
  | some g =>
    simp only [(h.keeps.handles.describes e g he).refs]
    exact Nat.add_sub_cancel _ _

variable {tf : TableAndFile}

theorem value_eq (h : CacheRun.Sound env.hash o cached lru in_use)
    (hheld : 0 < o.held handle) (hins : o.inserted[handle - 2]? = some (n, tf)) :
    value o.cache handle = .ok tf := by
  cases he : o.cache.heap handle with
  | none => exact absurd (h.keeps.handles.free handle he) hheld.ne'
  | some g =>
    have hg := (h.keeps.handles.describes handle g he).inserted
    rw [hins] at hg
    rw [value, he, map_some, ← (Prod.mk.inj (some.inj hg)).2]
    rfl

/-- **`FindTable`** fails with the status of the open and leaves the cache as it is, or takes a
reference of a handle whose value is in the cache already or has just been opened. -/
theorem findTable_spec (h : CacheRun.Sound env.hash o cached lru in_use)
    (hfits : ∀ e, o.held e + 2 < 2 ^ 32) (hroom : o.cache.table.elems < 2 ^ 31) (n size : ℕ) :
    (∃ st, openFile env n size = .error st ∧
      findTable env o.cache n size = .ok (o.cache, .error st)) ∨
    ∃ o' cached' lru' in_use' handle tf,
      findTable env o.cache n size = .ok (o'.cache, .ok handle) ∧
      CacheRun.Sound env.hash o' cached' lru' in_use' ∧
      o'.held = update o.held handle (o.held handle + 1) ∧
      value o'.cache handle = .ok tf ∧
      ((n, tf) ∈ o.inserted ∧ o'.inserted = o.inserted ∨
        openFile env n size = .ok tf ∧ o'.inserted = o.inserted ++ [(n, tf)]) := by
  obtain ⟨o₁, lru₁, in_use₁, hstep, -, h₁⟩ := h.lookup n hfits
  obtain ⟨s, r, hlookup, -, hvalue⟩ := h.lookup_latest n
  rw [CacheRun.step, hlookup, map_some] at hstep
  obtain rfl := some.inj hstep
  cases r with
  | some handle =>
    -- the table is in the cache
    obtain ⟨g, hg, hins⟩ := hvalue handle rfl
    refine .inr ⟨_, _, _, _, handle, g.value, ?_, h₁, rfl, ?_,
      .inl ⟨mem_of_getElem? hins, rfl⟩⟩
    · rw [findTable, hlookup]
    · rw [value, hg]
      rfl
  | none =>
    have hsame : s = o.cache := by
      rw [LRUCache.lookup, bind_eq_some_iff] at hlookup
      obtain ⟨found, -, hfound⟩ := hlookup
      cases found with
      | none => exact (Prod.mk.inj (some.inj hfound)).1.symm
      | some e =>
        obtain ⟨s', -, hs'⟩ := map_eq_some_iff.1 hfound
        cases (Prod.mk.inj hs').2
    subst hsame
    cases hopen : openFile env n size with
    | error st => exact .inl ⟨st, rfl, by rw [findTable, hlookup]; simp only [hopen]⟩
    | ok tf =>
      obtain ⟨o₂, cached₂, lru₂, in_use₂, hstep₂, -, h₂, -⟩ := h.insert n tf 1 hroom
      obtain ⟨⟨s₂, handle⟩, hinsert, rfl⟩ := map_eq_some_iff.1 hstep₂
      have hhandle : handle = o.inserted.length + 2 := by
        obtain ⟨s', -, hs'⟩ := bind_eq_some_iff.1 hinsert
        obtain ⟨s'', -, hs''⟩ := map_eq_some_iff.1 hs'
        rw [← (Prod.mk.inj hs'').2, h.keeps.next_handle]
      refine .inr ⟨_, _, _, _, handle, tf, ?_, h₂, rfl, ?_, .inr ⟨rfl, rfl⟩⟩
      · rw [findTable, hlookup]
        simp only [hopen, hinsert]
        rfl
      · refine value_eq (n := n) h₂ ?_ ?_
        · simp only [update_self]
          exact Nat.succ_pos _
        · simp only [hhandle, Nat.add_sub_cancel]
          rw [List.getElem?_append_right le_rfl, Nat.sub_self]
          rfl

/-- **A handle that has been taken can be released**, and then the references are as before. -/
theorem release_spec (h : CacheRun.Sound env.hash o cached lru in_use) (held : ℕ → ℕ)
    (hheld : o.held = update held handle (held handle + 1)) :
    ∃ s, o.cache.release handle = some s ∧ ∀ e, s.clientRefs e = held e := by
  have hone : o.held handle = held handle + 1 := by rw [hheld, update_self]
  obtain ⟨o', lru', in_use', hstep, -, h'⟩ := h.release (show 0 < o.held handle by omega)
  obtain ⟨s, hs, rfl⟩ := map_eq_some_iff.1 hstep
  refine ⟨s, hs, fun e => ?_⟩
  refine (clientRefs_eq h' e).trans ?_
  simp only [hone, Nat.add_sub_cancel]
  rw [hheld, update_idem, update_eq_self]

theorem levelRead_of_found {σ : Type} {g : BlockGeometry} {model : LearnedIndexData}
    {q : TableLookup} {arg : σ} {handle_result : σ → Bytes → Bytes → σ}
    {s₁ : LRUCache ℕ TableAndFile}
    (hfind : findTable env s q.file_number q.file_size = .ok (s₁, .ok handle))
    (hvalue : value s₁ handle = .ok tf) :
    levelRead env g model q arg handle_result s =
      (Fault.undefined.unless (readRequest entryUnchecked InternalKeyComparator.compare
        tf.index_block g model q.k q.lower q.upper q.learned)).bind fun request =>
      request.elim (.ok (s₁, arg)) fun p =>
        (tf.readEntries g q.k arg handle_result p.1 p.2.1 p.2.2).bind fun arg =>
          (Fault.undefined.unless (s₁.release handle)).map fun s₂ => (s₂, arg) := by
  simp only [levelRead, hfind, hvalue, bind, Except.bind]
  generalize Fault.undefined.unless (readRequest entryUnchecked InternalKeyComparator.compare
    tf.index_block g model q.k q.lower q.upper q.learned) = request
  cases request with
  | error fault => rfl
  | ok request =>
    cases request with
    | none => rfl
    | some p =>
      simp only [elim_some]
      generalize tf.readEntries g q.k arg handle_result p.1 p.2.1 p.2.2 = read
      cases read with
      | error fault => rfl
      | ok arg =>
        simp only
        cases s₁.release handle <;> rfl

end Handles

/-! ### Files that can be read -/

end TableCache

section Plain

variable {env : TableEnv} {t : Table} {k : Bytes}

/-- The value of the cache for a table in a file that can be read, without a filter. -/
def TableAndFile.ofTable (t : Table) : TableAndFile := ⟨.ofBytes t.file, t.index_block, none⟩

theorem TableAndFile.openTable_ofBytes (hmeta : ∀ file footer, env.readMeta file footer = none)
    (file : Bytes) (size : ℕ) :
    openTable env (.ofBytes file) size =
      (Table.openTable env.crc env.paranoid_checks file size).map ofTable := by
  simp only [openTable, Table.openTable, hmeta, RandomAccessFile.ofBytes]
  cases Table.openIndex env.crc env.paranoid_checks (readFile file) size <;> rfl

theorem TableAndFile.internalGet_ofTable {σ : Type} (k : Bytes) (arg : σ)
    (handle_result : σ → Bytes → Bytes → σ) :
    (ofTable t).internalGet env k arg handle_result =
      t.internalGet InternalKeyComparator.compare env.crc env.verify_checksums k arg
        handle_result := by
  have hnone : ∀ value : Option (BlockHandle × Bytes),
      (value.any fun p => (ofTable t).rejects p.1.offset k) = false := by
    intro value
    cases value with
    | none => rfl
    | some p => rfl
  simp only [internalGet, hnone]
  rfl

theorem TableAndFile.readEntries_ofTable {σ : Type} {g : BlockGeometry} {arg arg' : σ}
    {handle_result : σ → Bytes → Bytes → σ} {i a b : ℕ}
    (h : searchBlock InternalKeyComparator.compare t g k arg handle_result i a b = some arg') :
    (ofTable t).readEntries g k arg handle_result i a b = .ok arg' := by
  rw [searchBlock, Option.bind_eq_some_iff] at h
  obtain ⟨entries, hread, hfound⟩ := h
  obtain ⟨entry, hentry, rfl⟩ := Option.map_eq_some_iff.1 hfound
  have hmemory : (ofTable t).file.memory (i * g.block_size + a * g.entry_size) (readSize g a b) =
      entries := by
    change Option.getD (Except.toOption _) [] = _
    rw [hread, Option.getD_some]
  rw [readEntries, if_neg (show ¬ (ofTable t).rejects (i * g.block_size) k = true from
    Bool.false_ne_true)]
  dsimp only
  rw [hmemory, bisectEntries_unchecked hentry]
  rfl

end Plain

namespace TableCache

section Plain

variable {σ : Type} {env : TableEnv} {g : BlockGeometry} {model : LearnedIndexData}
  {q : TableLookup} {files : ℕ → Except Status Bytes} {sizes : ℕ → ℕ}
  {o : CacheRun ℕ TableAndFile} {cached lru in_use : List ℕ}

/-- The table files can be read, and have no filters. -/
structure Serves (env : TableEnv) (files : ℕ → Except Status Bytes) : Prop where
  tableFile : ∀ n, env.tableFile n = (files n).map .ofBytes
  sstTableFile : ∀ n, ∃ s, env.sstTableFile n = .error s
  readMeta : ∀ file footer, env.readMeta file footer = none

/-- The tables in the cache are those that an open gives. -/
def Current (env : TableEnv) (sizes : ℕ → ℕ) (o : CacheRun ℕ TableAndFile) : Prop :=
  ∀ p ∈ o.inserted, openFile env p.1 (sizes p.1) = .ok p.2

theorem openFile_eq (h : Serves env files) (n size : ℕ) :
    openFile env n size = ((files n).bind fun file =>
      Table.openTable env.crc env.paranoid_checks file size).map .ofTable := by
  rw [openFile, h.tableFile]
  cases files n with
  | error s =>
    obtain ⟨s', hs'⟩ := h.sstTableFile n
    simp only [Except.map, hs']
    rfl
  | ok file => exact TableAndFile.openTable_ofBytes h.readMeta file size

/-- **`FindTable` opens the table of the file**, after any operations of the clients. -/
theorem findTable_serves (hserves : Serves env files) {capacity : ℕ}
    {ops : List (CacheOp ℕ TableAndFile)}
    (hok : Steps.Meets (CacheRun.step env.hash) CacheRun.Allowed (CacheRun.init capacity) ops)
    (hrun : Steps.run (CacheRun.step env.hash) (CacheRun.init capacity) ops = some o)
    (hfits : ∀ e, o.held e + 2 < 2 ^ 32) (hroom : o.cache.table.elems < 2 ^ 31)
    (hcurrent : Current env sizes o) {n size : ℕ} (hsize : size = sizes n) :
    (∃ st, ((files n).bind fun file => Table.openTable env.crc env.paranoid_checks file size) =
        .error st ∧ findTable env o.cache n size = .ok (o.cache, .error st)) ∨
    ∃ t s₁ s₂ handle, ((files n).bind fun file =>
        Table.openTable env.crc env.paranoid_checks file size) = .ok t ∧
      findTable env o.cache n size = .ok (s₁, .ok handle) ∧ value s₁ handle = .ok (.ofTable t) ∧
      s₁.release handle = some s₂ := by
  obtain ⟨o₀, hrun₀, -, cached, lru, in_use, h⟩ :=
    CacheRun.exists_sound_run env.hash capacity ops hok
  obtain rfl := some.inj (hrun.symm.trans hrun₀)
  have hopen := openFile_eq hserves n size
  rcases findTable_spec h hfits hroom n size with ⟨st, hst, hfind⟩ |
    ⟨o', cached', lru', in_use', handle, tf, hfind, h', hheld, hvalue, horigin⟩
  · rw [hst] at hopen
    cases htable : (files n).bind fun file =>
        Table.openTable env.crc env.paranoid_checks file size with
    | error st' =>
      rw [htable] at hopen
      obtain rfl := Except.error.inj hopen
      exact .inl ⟨st, rfl, hfind⟩
    | ok t =>
      rw [htable] at hopen
      cases hopen
  · obtain ⟨s₂, hrelease, -⟩ := release_spec h' o.held hheld
    have htf : openFile env n size = .ok tf := by
      rcases horigin with ⟨hmem, -⟩ | ⟨hnew, -⟩
      · rw [hsize]
        exact hcurrent (n, tf) hmem
      · exact hnew
    rw [htf] at hopen
    cases htable : (files n).bind fun file =>
        Table.openTable env.crc env.paranoid_checks file size with
    | error st =>
      rw [htable] at hopen
      cases hopen
    | ok t =>
      rw [htable] at hopen
      obtain rfl := Except.ok.inj hopen
      exact .inr ⟨t, o'.cache, s₂, handle, rfl, hfind, hvalue, hrelease⟩

/-- **The cache is transparent on the baseline path**, after any operations of its clients. -/
theorem baseline_eq (hserves : Serves env files) {capacity : ℕ}
    {ops : List (CacheOp ℕ TableAndFile)}
    (hok : Steps.Meets (CacheRun.step env.hash) CacheRun.Allowed (CacheRun.init capacity) ops)
    (hrun : Steps.run (CacheRun.step env.hash) (CacheRun.init capacity) ops = some o)
    (hfits : ∀ e, o.held e + 2 < 2 ^ 32) (hroom : o.cache.table.elems < 2 ^ 31)
    (hcurrent : Current env sizes o) (hsize : q.file_size = sizes q.file_number) (arg : σ)
    (handle_result : σ → Bytes → Bytes → σ) :
    ∃ s', baseline env q arg handle_result o.cache = .ok (s', tableCacheGet env.crc
      env.paranoid_checks env.verify_checksums files q.file_number q.file_size q.k arg
      handle_result) := by
  rw [tableCacheGet]
  rcases findTable_serves hserves hok hrun hfits hroom hcurrent hsize with ⟨st, htable, hfind⟩ |
    ⟨t, s₁, s₂, handle, htable, hfind, hvalue, hrelease⟩
  · refine ⟨o.cache, ?_⟩
    rw [baseline, hfind]
    -- Either the file or the table in it cannot be opened.
    cases hfile : files q.file_number with
    | error st' =>
      rw [hfile] at htable
      obtain rfl := Except.error.inj htable
      rfl
    | ok file =>
      rw [hfile, Except.bind] at htable
      simp only [htable]
      rfl
  · refine ⟨s₂, ?_⟩
    cases hfile : files q.file_number with
    | error st =>
      rw [hfile] at htable
      cases htable
    | ok file =>
      rw [hfile, Except.bind] at htable
      simp only [baseline, hfind, hvalue, bind, Except.bind, hrelease, Fault.unless,
        TableAndFile.internalGet_ofTable, htable]

/-- **The cache is transparent on the learned path**: where `Bourbon.levelRead` meets no failed
assertion, this is what `LevelRead` hands over. -/
theorem levelRead_eq (hserves : Serves env files) {capacity : ℕ}
    {ops : List (CacheOp ℕ TableAndFile)}
    (hok : Steps.Meets (CacheRun.step env.hash) CacheRun.Allowed (CacheRun.init capacity) ops)
    (hrun : Steps.run (CacheRun.step env.hash) (CacheRun.init capacity) ops = some o)
    (hfits : ∀ e, o.held e + 2 < 2 ^ 32) (hroom : o.cache.table.elems < 2 ^ 31)
    (hcurrent : Current env sizes o) (hsize : q.file_size = sizes q.file_number) {file : Bytes}
    {t : Table} (hfile : files q.file_number = .ok file)
    (htable : Table.openTable env.crc env.paranoid_checks file q.file_size = .ok t) {arg arg' : σ}
    {handle_result : σ → Bytes → Bytes → σ}
    (hread : Bourbon.levelRead InternalKeyComparator.compare t g model q.k arg handle_result q.lower
      q.upper q.learned = some arg') :
    ∃ s', levelRead env g model q arg handle_result o.cache = .ok (s', arg') := by
  rcases findTable_serves hserves hok hrun hfits hroom hcurrent hsize with ⟨st, hnone, hfind⟩ |
    ⟨t', s₁, s₂, handle, hsome, hfind, hvalue, hrelease⟩
  · rw [hfile, Except.bind, htable] at hnone
    cases hnone
  · rw [hfile, Except.bind, htable] at hsome
    obtain rfl := Except.ok.inj hsome
    rw [Bourbon.levelRead, bind_eq_some_iff] at hread
    obtain ⟨request, hrequest, hsearch⟩ := hread
    rw [levelRead_of_found hfind hvalue, show (TableAndFile.ofTable t).index_block = t.index_block
      from rfl, readRequest_unchecked hrequest, hrelease]
    cases request with
    | none => exact ⟨s₁, by rw [← some.inj hsearch]; rfl⟩
    | some p =>
      rw [elim_some] at hsearch
      have hentries := TableAndFile.readEntries_ofTable hsearch
      refine ⟨s₂, ?_⟩
      dsimp only [Fault.unless, Except.bind, elim_some]
      rw [hentries]
      rfl

end Plain

/-! ### References -/

/-- A cache as its clients leave it: they release only what they hold, no reference count is about
to overflow, and the hash table has room for one more entry. -/
def Reached (env : TableEnv) (s : LRUCache ℕ TableAndFile) : Prop :=
  ∃ capacity ops o, Steps.Meets (CacheRun.step env.hash) CacheRun.Allowed
      (CacheRun.init capacity) ops ∧
    Steps.run (CacheRun.step env.hash) (CacheRun.init capacity) ops = some o ∧ o.cache = s ∧
    (∀ e, o.held e + 2 < 2 ^ 32) ∧ o.cache.table.elems < 2 ^ 31

/-- The file model of a lookup answers that the key is not in the file. -/
def Excluded (model : LearnedIndexData) (k : Bytes) : Prop :=
  ∃ lower upper, model.getPosition (extractUserKey k) = some (lower, upper) ∧
    lower > model.maxPosition

section References

variable {σ : Type} {env : TableEnv} {g : BlockGeometry} {model : LearnedIndexData}
  {q : TableLookup} {arg arg' : σ} {handle_result : σ → Bytes → Bytes → σ} {MOD : ℕ}
  {s s' : LRUCache ℕ TableAndFile} {st : Status}

theorem Reached.findTable (h : Reached env s) (n size : ℕ) :
    (∃ st, openFile env n size = .error st ∧ findTable env s n size = .ok (s, .error st)) ∨
    ∃ s₁ s₂ handle tf, findTable env s n size = .ok (s₁, .ok handle) ∧
      s₁.clientRefs handle = s.clientRefs handle + 1 ∧ value s₁ handle = .ok tf ∧
      s₁.release handle = some s₂ ∧ ∀ e, s₂.clientRefs e = s.clientRefs e := by
  obtain ⟨capacity, ops, o, hok, hrun, rfl, hfits, hroom⟩ := h
  obtain ⟨o₀, hrun₀, -, cached, lru, in_use, hsound⟩ :=
    CacheRun.exists_sound_run env.hash capacity ops hok
  obtain rfl := some.inj (hrun.symm.trans hrun₀)
  rcases findTable_spec hsound hfits hroom n size with herror | hfound
  · exact .inl herror
  · obtain ⟨o₁, cached₁, lru₁, in_use₁, handle, tf, hfind, h₁, hheld, hvalue, -⟩ := hfound
    obtain ⟨s₂, hrelease, hrefs⟩ := release_spec h₁ o.held hheld
    refine .inr ⟨o₁.cache, s₂, handle, tf, hfind, ?_, hvalue, hrelease, fun e => ?_⟩
    · rw [clientRefs_eq h₁, clientRefs_eq hsound, hheld, update_self]
    · rw [hrefs, clientRefs_eq hsound]

theorem readRequest_eq_none_iff {decode : Bytes → ℕ → Option (Bytes × Bytes)}
    {compare : Bytes → Bytes → Ordering} {index_block : Block} {k : Bytes} {lower upper : ℕ}
    {learned : Bool} {request : Option (ℕ × ℕ × ℕ)}
    (h : readRequest decode compare index_block g model k lower upper learned = some request) :
    request = none ↔ learned = false ∧ Excluded model k := by
  rw [readRequest] at h
  cases learned with
  | true =>
    obtain ⟨r, -, rfl⟩ := map_eq_some_iff.1 h
    exact iff_of_false (some_ne_none r) fun h => Bool.false_ne_true h.1.symm
  | false =>
    rw [if_neg Bool.false_ne_true] at h
    cases hposition : model.getPosition (extractUserKey k) with
    | none =>
      rw [hposition] at h
      cases h
    | some bounds =>
      rw [hposition] at h
      dsimp only at h
      split_ifs at h with hmax
      · obtain rfl := some.inj h
        exact iff_of_true rfl ⟨rfl, _, _, hposition, hmax⟩
      · obtain ⟨r, -, rfl⟩ := map_eq_some_iff.1 h
        refine iff_of_false (some_ne_none r) ?_
        rintro ⟨-, lower', upper', hposition', hmax'⟩
        rw [hposition] at hposition'
        exact hmax (some.inj hposition' ▸ hmax')

/-- **The learned path** gives its handle back, unless the file model excludes the key. -/
theorem levelRead_refs (h : Reached env s)
    (hread : levelRead env g model q arg handle_result s = .ok (s', arg')) :
    (∀ e, s'.clientRefs e = s.clientRefs e) ↔ ¬ (q.learned = false ∧ Excluded model q.k) := by
  rcases h.findTable q.file_number q.file_size with ⟨st, -, hfind⟩ | hfound
  · rw [levelRead, hfind] at hread
    cases hread
  · obtain ⟨s₁, s₂, handle, tf, hfind, htaken, hvalue, hrelease, hrefs⟩ := hfound
    rw [levelRead_of_found hfind hvalue, hrelease] at hread
    cases hrequest : readRequest entryUnchecked InternalKeyComparator.compare tf.index_block g model
        q.k q.lower q.upper q.learned with
    | none =>
      rw [hrequest] at hread
      cases hread
    | some request =>
      rw [hrequest] at hread
      rw [← readRequest_eq_none_iff hrequest]
      cases request with
      | none =>
        obtain ⟨rfl, -⟩ := Prod.mk.inj (Except.ok.inj hread)
        refine iff_of_false (fun hall => ?_) (not_not.2 rfl)
        have := hall handle
        omega
      | some p =>
        refine iff_of_true ?_ (fun hnone => by cases hnone)
        simp only [Fault.unless, Except.bind, elim_some] at hread
        split at hread
        · cases hread
        · obtain ⟨rfl, -⟩ := Prod.mk.inj (Except.ok.inj hread)
          exact hrefs

/-- **The baseline path** gives its handle back. -/
theorem baseline_refs (h : Reached env s)
    (hread : baseline env q arg handle_result s = .ok (s', arg', st)) (e : ℕ) :
    s'.clientRefs e = s.clientRefs e := by
  rcases h.findTable q.file_number q.file_size with ⟨st', -, hfind⟩ | hfound
  · rw [baseline, hfind] at hread
    obtain ⟨rfl, -⟩ := Prod.mk.inj (Except.ok.inj hread)
    rfl
  · obtain ⟨s₁, s₂, handle, tf, hfind, -, hvalue, hrelease, hrefs⟩ := hfound
    simp only [baseline, hfind, hvalue, bind, Except.bind, hrelease, Fault.unless] at hread
    obtain ⟨rfl, -⟩ := Prod.mk.inj (Except.ok.inj hread)
    exact hrefs e

/-- **References of a lookup.**  A lookup that returns leaves the references of clients as they
were, except on the learned path if no level model is used and the file model excludes the key. -/
theorem get_keeps_references_iff (h : Reached env s)
    (hget : get env g model q arg handle_result MOD s = .ok (s', arg', st)) :
    (∀ e, s'.clientRefs e = s.clientRefs e) ↔
      ¬ (Learned MOD model q ∧ q.learned = false ∧ Excluded model q.k) := by
  rw [get] at hget
  by_cases hpath : Learned MOD model q
  · rw [if_pos hpath] at hget
    obtain ⟨⟨s₁, a⟩, hread, heq⟩ : ∃ p, levelRead env g model q arg handle_result s = .ok p ∧
        (p.1, p.2, Status.ok) = (s', arg', st) := by
      cases hread : levelRead env g model q arg handle_result s with
      | error fault =>
        rw [hread] at hget
        cases hget
      | ok p =>
        rw [hread] at hget
        exact ⟨p, rfl, Except.ok.inj hget⟩
    obtain ⟨rfl, -⟩ := Prod.mk.inj heq
    rw [levelRead_refs h hread]
    exact not_congr (and_iff_right hpath).symm
  · rw [if_neg hpath] at hget
    exact iff_of_true (baseline_refs h hget) fun hbad => hpath hbad.1

end References

/-- The files of a database with one table file, number 5. -/
def oneFile : TableEnv where
  crc := zeroCrc
  paranoid_checks := false
  verify_checksums := false
  hash := id
  tableFile n := if n = 5 then .ok (.ofBytes OneEntry.table.file)
    else .error (.notFound "No such file or directory")
  sstTableFile _ := .error (.notFound "No such file or directory")
  readMeta _ _ := none

theorem reached_new : Reached oneFile (LRUCache.new 10) :=
  ⟨10, [], CacheRun.init 10, trivial, rfl, rfl, fun _ => show 0 + 2 < 2 ^ 32 by decide, by decide⟩

/-- A lookup behind the only key of the file. -/
def behindLast : TableLookup :=
  ⟨5, OneEntry.table.file.length, (lookupKey [50] 9).encode, 0, 0, false⟩

/-- A handler that notes its calls. -/
def noteCall (calls : List (Bytes × Bytes)) (k v : Bytes) : List (Bytes × Bytes) :=
  calls ++ [(k, v)]

/-- A lookup of the only key of the file. -/
def storedKey : TableLookup :=
  ⟨5, OneEntry.table.file.length, (lookupKey [49] 9).encode, 0, 0, false⟩

/-- The table has been inserted and released before: the lookup finds it in the cache, and the
handler receives the entry. -/
theorem baseline_eq_hit :
    let ops : List (CacheOp ℕ TableAndFile) := [.insert 5 (.ofTable OneEntry.table) 1, .release 2]
    ∃ files o s', Serves oneFile files ∧
      Steps.Meets (CacheRun.step oneFile.hash) CacheRun.Allowed (CacheRun.init 10) ops ∧
      Steps.run (CacheRun.step oneFile.hash) (CacheRun.init 10) ops = some o ∧
      (o.cache.lookup 5 5).map Prod.snd = some (some 2) ∧
      baseline oneFile storedKey [] noteCall o.cache =
        .ok (s', [(InternalKey.encode ⟨[49], 5, .value⟩, [97])], .ok) := by
  intro ops
  have hserves : Serves oneFile fun n => if n = 5 then .ok OneEntry.table.file
      else .error (.notFound "No such file or directory") :=
    ⟨fun n => by simp only [oneFile]; split_ifs <;> rfl, fun _ => ⟨_, rfl⟩, fun _ _ => rfl⟩
  have hopen : Table.openTable zeroCrc false OneEntry.table.file storedKey.file_size =
    .ok OneEntry.table := by decide +kernel
  have hok : Steps.Meets (CacheRun.step oneFile.hash) CacheRun.Allowed (CacheRun.init 10) ops :=
    CacheRun.meets_of_short (n := 0) (by decide +kernel) (fun _ => le_rfl) (by decide)
  obtain ⟨o, hrun, hlookup, hroom, hinserted, hrefs⟩ : ∃ o,
      Steps.run (CacheRun.step oneFile.hash) (CacheRun.init 10) ops = some o ∧
      (o.cache.lookup 5 5).map Prod.snd = some (some 2) ∧ o.cache.table.elems < 2 ^ 31 ∧
      o.inserted = [(5, .ofTable OneEntry.table)] ∧
      o.held = update (update (fun _ => 0) 2 1) 2 0 :=
    ⟨_, rfl, rfl, by decide, rfl, rfl⟩
  have hcurrent : Current oneFile (fun _ => storedKey.file_size) o := by
    intro p hp
    rw [hinserted, mem_singleton] at hp
    rw [hp, openFile_eq hserves, if_pos rfl, Except.bind]
    exact congrArg (Except.map TableAndFile.ofTable) hopen
  have hheld : ∀ e, o.held e + 2 < 2 ^ 32 := by
    intro e
    rw [hrefs, update_idem, update_apply]
    split_ifs <;> decide
  obtain ⟨s', h⟩ := baseline_eq (q := storedKey) hserves hok hrun hheld hroom hcurrent rfl []
    noteCall
  have hfound : tableCacheGet zeroCrc false false (fun n => if n = 5 then
      .ok OneEntry.table.file else .error (.notFound "No such file or directory")) 5
      storedKey.file_size storedKey.k [] noteCall =
      ([(InternalKey.encode ⟨[49], 5, .value⟩, [97])], .ok) := by decide +kernel
  exact ⟨_, o, s', hserves, hok, hrun, hlookup,
    h.trans (congrArg (fun r => Except.ok (s', r)) hfound)⟩

/-- **A key behind the last one leaves its handle in use**: the lookup returns, the cache has one
entry, and a client that is gone has a reference of it. -/
theorem behindLast_keeps_handle :
    ((get oneFile OneEntry.geometry OneEntry.model behindLast []
        (fun calls k v => calls ++ [(k, v)]) 7 (LRUCache.new 10)).toOption.map fun r =>
          (r.1.clientRefs 2, r.2.1, r.2.2)) =
      some (1, [], .ok) ∧
    (LRUCache.new 10 : LRUCache ℕ TableAndFile).clientRefs 2 = 0 := by
  decide +kernel

theorem get_keeps_references_iff_behindLast :
    Reached oneFile (LRUCache.new 10) ∧
      ∃ s' arg' st, get oneFile OneEntry.geometry OneEntry.model behindLast ()
          (fun _ _ _ => ()) 7 (LRUCache.new 10) = .ok (s', arg', st) ∧
        ((∀ e, s'.clientRefs e = (LRUCache.new 10 : LRUCache ℕ TableAndFile).clientRefs e) ↔
          ¬ (Learned 7 OneEntry.model behindLast ∧ behindLast.learned = false ∧
            Excluded OneEntry.model behindLast.k)) := by
  obtain ⟨⟨s', arg', st⟩, hget⟩ : ∃ r, get oneFile OneEntry.geometry OneEntry.model behindLast ()
      (fun _ _ _ => ()) 7 (LRUCache.new 10) = .ok r := by
    cases hget : get oneFile OneEntry.geometry OneEntry.model behindLast () (fun _ _ _ => ()) 7
        (LRUCache.new 10) with
    | ok r => exact ⟨r, rfl⟩
    | error fault =>
      have hsome : (get oneFile OneEntry.geometry OneEntry.model behindLast () (fun _ _ _ => ()) 7
        (LRUCache.new 10)).toOption.isSome = true := by decide +kernel
      rw [hget] at hsome
      cases hsome
  exact ⟨reached_new, s', arg', st, hget, get_keeps_references_iff reached_new hget⟩

/-! ### Errors -/

/-- A step of a learned lookup fails: the table cannot be opened, or the entries of the interval
cannot be read, or what has been read does not decode. -/
inductive StepFails (env : TableEnv) (g : BlockGeometry) (model : LearnedIndexData)
    (q : TableLookup) (s : LRUCache ℕ TableAndFile) : Prop where
  | openTable {s' st} (hfind : findTable env s q.file_number q.file_size = .ok (s', .error st))
  | readEntries {s' handle tf i a b}
      (hfind : findTable env s q.file_number q.file_size = .ok (s', .ok handle))
      (hvalue : value s' handle = .ok tf)
      (hrequest : readRequest entryUnchecked InternalKeyComparator.compare tf.index_block g model
        q.k q.lower q.upper q.learned = some (some (i, a, b)))
      (hpasses : tf.rejects (i * g.block_size) q.k = false)
      (hfails : (∃ st, tf.file.read (i * g.block_size + a * g.entry_size) (readSize g a b) =
          .error st) ∨
        bisectEntries entryAt InternalKeyComparator.compare g q.k
          (tf.file.memory (i * g.block_size + a * g.entry_size) (readSize g a b)) a b = none)

/-- The lookup returns without having called the handler, and with an error if the baseline path
returns one. -/
def ReportsErrors (env : TableEnv) (g : BlockGeometry) (model : LearnedIndexData)
    (q : TableLookup) (MOD : ℕ) (s : LRUCache ℕ TableAndFile) : Prop :=
  ∃ s₂ st₂, get env g model q [] noteCall MOD s = .ok (s₂, [], st₂) ∧
    ∀ s₁ calls₁ st₁, get env g model q [] noteCall 0 s = .ok (s₁, calls₁, st₁) → st₁ ≠ .ok →
      st₂ ≠ .ok

section Errors

variable {env : TableEnv} {g : BlockGeometry} {model : LearnedIndexData} {q : TableLookup}
  {MOD : ℕ} {s s' : LRUCache ℕ TableAndFile} {tf : TableAndFile} {handle i a b : ℕ}

/-- **A lookup that reads entries calls the handler** or has no defined result, whether or not the
read succeeds. -/
theorem levelRead_of_request
    (hfind : findTable env s q.file_number q.file_size = .ok (s', .ok handle))
    (hvalue : value s' handle = .ok tf)
    (hrequest : readRequest entryUnchecked InternalKeyComparator.compare tf.index_block g model
      q.k q.lower q.upper q.learned = some (some (i, a, b)))
    (hpasses : tf.rejects (i * g.block_size) q.k = false) (s₂ : LRUCache ℕ TableAndFile) :
    levelRead env g model q [] noteCall s ≠ .ok (s₂, []) := by
  rw [levelRead_of_found hfind hvalue, hrequest]
  dsimp only [Fault.unless, Except.bind, elim_some]
  rw [TableAndFile.readEntries, if_neg (by rw [hpasses]; exact Bool.false_ne_true)]
  dsimp only
  generalize bisectEntries entryUnchecked InternalKeyComparator.compare g q.k _ a b = found
  cases found with
  | none => exact nofun
  | some entry =>
    cases s'.release handle with
    | none => exact nofun
    | some s₃ =>
      intro heq
      cases (Prod.mk.inj (Except.ok.inj heq)).2

/-- **The learned path reports no error.**  A learned lookup in which a step fails uses a null
handle, calls the handler or has no defined result. -/
theorem not_reportsErrors (hpath : Learned MOD model q) (hfail : StepFails env g model q s) :
    ¬ ReportsErrors env g model q MOD s := by
  rintro ⟨s₂, st₂, hget, -⟩
  rw [get, if_pos hpath] at hget
  cases hread : levelRead env g model q [] noteCall s with
  | error fault =>
    rw [hread] at hget
    cases hget
  | ok p =>
    rw [hread] at hget
    obtain ⟨hcache, hcalls⟩ := Prod.mk.inj (Except.ok.inj hget)
    have hnone : levelRead env g model q [] noteCall s = .ok (s₂, []) := by
      rw [hread, ← hcache, ← (Prod.mk.inj hcalls).1]
    cases hfail with
    | openTable hfind =>
      rw [levelRead, hfind] at hnone
      cases hnone
    | readEntries hfind hvalue hrequest hpasses hfails =>
      exact levelRead_of_request hfind hvalue hrequest hpasses s₂ hnone

end Errors

/-- A lookup in a file that is not there. -/
def missingFile : TableLookup := ⟨6, 0, (lookupKey [49] 9).encode, 0, 0, false⟩

theorem not_reportsErrors_missingFile :
    Learned 7 OneEntry.model missingFile ∧
      StepFails oneFile OneEntry.geometry OneEntry.model missingFile (LRUCache.new 10) ∧
      ¬ ReportsErrors oneFile OneEntry.geometry OneEntry.model missingFile 7
        (LRUCache.new 10) := by
  have hpath : Learned 7 OneEntry.model missingFile := by decide
  have hfind : findTable oneFile (LRUCache.new 10) missingFile.file_number missingFile.file_size =
    .ok (LRUCache.new 10, .error (.notFound "No such file or directory")) := rfl
  exact ⟨hpath, .openTable hfind, not_reportsErrors hpath (.openTable hfind)⟩

/-- The file of `oneFile`, whose data block cannot be read; the array has the bytes of an entry
with another value. -/
def badBlock : RandomAccessFile where
  read offset n := if offset = 0 then .error (.ioError "Input/output error")
    else readFile OneEntry.table.file offset n
  memory offset n := if offset = 0 then encodeEntry (InternalKey.encode ⟨[49], 5, .value⟩, [98])
    else (readFile OneEntry.table.file offset n).toOption.getD []
  memory_read := by
    intro offset n bytes h
    split_ifs at h ⊢
    rw [h]
    exact List.prefix_rfl

/-- **A missing file and a failed read are not reported.**  For the file that is not there, the
learned path uses a null handle; for the block that cannot be read, it hands over what the array
holds and returns OK.  The baseline path returns the error. -/
theorem errors_not_reported :
    let outcome := fun env q MOD => (get env OneEntry.geometry OneEntry.model q [] noteCall MOD
      (LRUCache.new 10)).map Prod.snd
    let badFile := { oneFile with tableFile := fun _ => .ok badBlock }
    outcome oneFile missingFile 0 = .ok ([], .notFound "No such file or directory") ∧
      outcome oneFile missingFile 7 = .error .nullHandle ∧
      outcome badFile storedKey 0 = .ok ([], .ioError "Input/output error") ∧
      outcome badFile storedKey 7 =
        .ok ([(InternalKey.encode ⟨[49], 5, .value⟩, [98])], .ok) ∧
      ¬ ReportsErrors badFile OneEntry.geometry OneEntry.model storedKey 7 (LRUCache.new 10) := by
  dsimp only
  refine ⟨by decide +kernel, by decide +kernel, by decide +kernel, ?_⟩
  rw [and_iff_left_of_imp]
  · decide +kernel
  · rintro hcalled ⟨s₂, st₂, hget, -⟩
    rw [hget] at hcalled
    cases hcalled

end TableCache

end Bourbon
