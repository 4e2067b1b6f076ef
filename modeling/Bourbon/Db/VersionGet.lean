import Bourbon.Db.Lookup
import Bourbon.Db.TableCache

/-!
# Version::Get

The baseline read path over the bytes of the table files: `Version::Get` asks the table cache for
one file after the other and stops at the first one that has an answer.

* `tableCacheGet_eq` : what a lookup in one stored file leaves;
* `getLoop_eq` : the loop over the files returns the first answer;
* `versionGet_eq` : so `Version::Get` searches the entries of the version;
* `versionGet_newest` : the result is the newest visible entry of the version.
-/

namespace Bourbon

/-- `TableCache::Get` on the baseline path.  `files` opens a table file by its number. -/
def tableCacheGet {σ : Type} (crc : Bytes → UInt32) (paranoid_checks verify_checksums : Bool)
    (files : ℕ → Except Status Bytes) (file_number file_size : ℕ) (k : Bytes) (arg : σ)
    (handle_result : σ → Bytes → Bytes → σ) : σ × Status :=
  match files file_number with
  | .error s => (arg, s)
  | .ok file =>
    match Table.openTable crc paranoid_checks file file_size with
    | .error s => (arg, s)
    | .ok t =>
      t.internalGet InternalKeyComparator.compare crc verify_checksums k arg handle_result

/-- `Version::GetStats`: the file to charge for a seek, with its level. -/
structure GetStats where
  seek_file : Option (ℕ × FileMetaData Bytes)
  deriving DecidableEq

/-- The text of a slice in a message. -/
def sliceText (s : Bytes) : String := String.ofList (s.map fun b => Char.ofNat b.toNat)

/-- The loop of `Version::Get` over the files to search: status, value and statistics. -/
def getLoop (get : FileMetaData Bytes → Saver → Saver × Status) (user_key : Bytes) :
    List (ℕ × FileMetaData Bytes) → Option (ℕ × FileMetaData Bytes) → GetStats → Bytes →
      Status × Bytes × GetStats
  | [], _, stats, value => (.notFound "", value, stats)
  | p :: files, last_file_read, stats, value =>
    -- more than one seek for this read: charge the first file
    let stats := if last_file_read.isSome && stats.seek_file.isNone then ⟨last_file_read⟩ else stats
    match get p.2 ⟨.kNotFound, user_key, value⟩ with
    | (saver, .ok) =>
      match saver.state with
      | .kNotFound => getLoop get user_key files (some p) stats saver.value
      | .kFound => (.ok, saver.value, stats)
      | .kDeleted => (.notFound "", saver.value, stats)
      | .kCorrupt => (.corruption ("corrupted key for : " ++ sliceText user_key),
          saver.value, stats)
    | (saver, s) => (s, saver.value, stats)

/-- `Version::Get` without level and file models. -/
def versionGet (crc : Bytes → UInt32) (paranoid_checks verify_checksums : Bool)
    (files : ℕ → Except Status Bytes) (v : Version Bytes) (user_key : Bytes) (sequence : ℕ)
    (value : Bytes) : Status × Bytes × GetStats :=
  let ikey := lookupKey user_key sequence
  getLoop (fun f saver => tableCacheGet crc paranoid_checks verify_checksums files f.number
    f.file_size ikey.encode saver saveValue) user_key (searchOrder v user_key ikey)
    none ⟨none⟩ value

/-! ### One file -/

/-- The table file that was built from the entries. -/
structure Stored (crc : Bytes → UInt32) (opts : Options) (files : ℕ → Except Status Bytes)
    (f : FileMetaData Bytes) (entries : List (Entry Bytes Bytes)) : Prop where
  restart : 0 < opts.block_restart_interval
  fits : ∀ cs, build crc opts (encodeEntries entries) =
    tableBytes crc opts.block_restart_interval cs → Table.Fits crc opts.block_restart_interval cs
  file : files f.number = .ok (build crc opts (encodeEntries entries))
  size : f.file_size = (build crc opts (encodeEntries entries)).length
  sequence : ∀ e ∈ entries, e.1.sequence ≤ kMaxSequenceNumber

section

variable {crc : Bytes → UInt32} {opts : Options} {files : ℕ → Except Status Bytes}
  {f : FileMetaData Bytes} {entries : List (Entry Bytes Bytes)} {u : Bytes} {s : ℕ}

theorem Stored.opened (h : Stored crc opts files f entries) (paranoid : Bool) :
    ∃ t, Table.openTable crc paranoid (build crc opts (encodeEntries entries)) f.file_size = .ok t ∧
      Table.Opened crc opts (encodeEntries entries) t := by
  obtain ⟨t, hopen, ht⟩ := Table.exists_opened paranoid h.restart h.fits
  exact ⟨t, h.size ▸ hopen, ht⟩

/-- What `SaveValue` makes of the answer of a table. -/
def savedAnswer (u value : Bytes) : Option (Entry Bytes Bytes) → Saver
  | some (⟨_, _, .value⟩, v) => ⟨.kFound, u, v⟩
  | some (⟨_, _, .deletion⟩, _) => ⟨.kDeleted, u, value⟩
  | none => ⟨.kNotFound, u, value⟩

theorem saveValue_encode {e : Entry Bytes Bytes} (he : e.1.sequence ≤ kMaxSequenceNumber)
    (value : Bytes) : saveValue ⟨.kNotFound, u, value⟩ e.1.encode e.2 =
      savedAnswer u value (if e.1.user_key = u then some e else none) := by
  by_cases huser : e.1.user_key = u
  · obtain ⟨⟨user_key, sequence, type⟩, v⟩ := e
    rw [saveValue, InternalKey.parseInternalKey_encode he, if_pos huser]
    simp only [if_pos (Slice.compare_eq_eq_iff.2 huser)]
    cases type <;> rfl
  · rw [saveValue_of_ne he huser, if_neg huser]
    rfl

/-- **A lookup in a stored file.** -/
theorem tableCacheGet_eq (h : Stored crc opts files f entries)
    (hsorted : entries.Pairwise fun a b => a.1 < b.1) (hs : s ≤ kMaxSequenceNumber)
    (paranoid verify : Bool) (value : Bytes) :
    tableCacheGet crc paranoid verify files f.number f.file_size (lookupKey u s).encode
      ⟨.kNotFound, u, value⟩ saveValue = (savedAnswer u value (tableLookup entries u s), .ok) := by
  obtain ⟨t, hopen, ht⟩ := h.opened paranoid
  have hget := ht.internalGet_eq (u := u) hsorted h.sequence hs verify
    (⟨.kNotFound, u, value⟩ : Saver) saveValue
  rw [tableCacheGet, h.file]
  simp only [hopen]
  rw [hget, tableLookup]
  cases hfind : entries.find? fun e => decide (lookupKey u s ≤ e.1) with
  | none => rfl
  | some e =>
    rw [Option.filter_some]
    simp only [decide_eq_true_eq]
    rw [saveValue_encode (h.sequence e (List.mem_of_find?_eq_some hfind))]

end

/-! ### The search -/

/-- The status and the value that report a read. -/
def readStatus (value : Bytes) : Option Bytes → Status × Bytes
  | some v => (.ok, v)
  | none => (.notFound "", value)

/-- **The loop returns the first answer.** -/
theorem getLoop_eq {get : FileMetaData Bytes → Saver → Saver × Status} {u value : Bytes}
    (found : FileMetaData Bytes → Option (Entry Bytes Bytes))
    {files : List (ℕ × FileMetaData Bytes)}
    (hget : ∀ p ∈ files, get p.2 ⟨.kNotFound, u, value⟩ = (savedAnswer u value (found p.2), .ok))
    (last_file_read : Option (ℕ × FileMetaData Bytes)) (stats : GetStats) :
    ∃ stats', getLoop get u files last_file_read stats value =
      ((readStatus value (answer (files.findSome? fun p => found p.2))).1,
        (readStatus value (answer (files.findSome? fun p => found p.2))).2, stats') := by
  induction files generalizing last_file_read stats with
  | nil => exact ⟨stats, rfl⟩
  | cons p files ih =>
    have hp := hget p List.mem_cons_self
    rw [getLoop, List.findSome?_cons]
    simp only [hp]
    cases hfound : found p.2 with
    | none =>
      simp only [savedAnswer]
      exact ih (fun q hq => hget q (List.mem_cons_of_mem p hq)) _ _
    | some e =>
      obtain ⟨⟨user_key, sequence, type⟩, v⟩ := e
      cases type
      · exact ⟨_, rfl⟩
      · exact ⟨_, rfl⟩

/-- **`Version::Get` searches the version**: its result is the answer of the search over entries. -/
theorem versionGet_eq {crc : Bytes → UInt32} {opts : ℕ → Options} {files : ℕ → Except Status Bytes}
    {tables : ℕ → List (Entry Bytes Bytes)} {v : Version Bytes} {s : ℕ}
    (hsorted : ∀ level < kNumLevels, ∀ f ∈ v level,
      (tables f.number).Pairwise fun a b => a.1 < b.1)
    (hs : s ≤ kMaxSequenceNumber)
    (hstored : ∀ level < kNumLevels, ∀ f ∈ v level,
      Stored crc (opts f.number) files f (tables f.number)) (paranoid verify : Bool)
    (u value : Bytes) :
    ∃ stats, versionGet crc paranoid verify files v u s value =
      ((readStatus value (answer (versionLookup tables v u s))).1,
        (readStatus value (answer (versionLookup tables v u s))).2, stats) := by
  refine getLoop_eq (fun f => tableLookup (tables f.number) u s) (fun p hp => ?_) none
    ⟨none⟩
  obtain ⟨hlevel, hfile⟩ := mem_searchOrder.1 hp
  have hmem := mem_filesToSearch hfile
  exact tableCacheGet_eq (hstored p.1 hlevel p.2 hmem) (hsorted p.1 hlevel p.2 hmem) hs paranoid
    verify value

/-- **`Version::Get` returns the newest visible entry** of all files of the version, or `NotFound`
if this is a deletion or no entry is visible. -/
theorem versionGet_newest (crc : Bytes → UInt32) (opts : ℕ → Options)
    (paranoid verify : Bool) (files : ℕ → Except Status Bytes)
    (tables : ℕ → List (Entry Bytes Bytes)) (v : Version Bytes) (u : Bytes) (s : ℕ) (value : Bytes)
    (hlayered : Layered tables v) (hs : s ≤ kMaxSequenceNumber)
    (hstored : ∀ level < kNumLevels, ∀ f ∈ v level,
      Stored crc (opts f.number) files f (tables f.number)) :
    ∃ r stats, versionGet crc paranoid verify files v u s value =
        ((readStatus value r).1, (readStatus value r).2, stats) ∧
      ∀ r', Reads (versionEntries tables v) u s r' ↔ r' = r := by
  obtain ⟨stats, heq⟩ := versionGet_eq (fun level hlevel f hf =>
    (hlayered.table level hlevel f hf).sorted) hs hstored paranoid verify u value
  exact ⟨answer (versionLookup tables v u s), stats, heq, reads_versionLookup hlayered⟩

/-! ### Two levels -/

namespace TwoLevels

/-- Two entries between restart points. -/
def opts : Options := ⟨4096, 2⟩

/-- The user key `k` is deleted at 9; it has the values `b` at 7 and `a` at 2. -/
def tables : ℕ → List (Entry Bytes Bytes)
  | 5 => [(⟨[107], 9, .deletion⟩, [])]
  | 4 => [(⟨[106], 8, .value⟩, [120]), (⟨[107], 7, .value⟩, [98])]
  | 3 => [(⟨[107], 2, .value⟩, [97]), (⟨[109], 1, .value⟩, [121])]
  | _ => []

/-- The metadata of a table. -/
def file (number : ℕ) (smallest largest : InternalKey Bytes) : FileMetaData Bytes :=
  ⟨number, (build zeroCrc opts (encodeEntries (tables number))).length, smallest, largest⟩

/-- Two files in level 0, one in level 1. -/
def version : Version Bytes
  | 0 => [file 4 ⟨[106], 8, .value⟩ ⟨[107], 7, .value⟩,
      file 5 ⟨[107], 9, .deletion⟩ ⟨[107], 9, .deletion⟩]
  | 1 => [file 3 ⟨[107], 2, .value⟩ ⟨[109], 1, .value⟩]
  | _ => []

/-- The table files. -/
def files (number : ℕ) : Except Status Bytes :=
  .ok (build zeroCrc opts (encodeEntries (tables number)))

theorem layered : Layered tables version where
  table := by decide +kernel
  ordered := by decide +kernel
  zero := by decide +kernel
  levels := by
    have hlevels : ∀ b < kNumLevels,
        ∀ e ∈ (List.range b).flatMap fun a => (version a).flatMap fun f => tables f.number,
        ∀ e' ∈ (version b).flatMap fun f => tables f.number, Newer e e' := by decide +kernel
    intro a b hab hb f hf g hg e he e' he'
    refine hlevels b hb e ?_ e' (List.mem_flatMap.2 ⟨g, hg, he'⟩)
    exact List.mem_flatMap.2 ⟨a, List.mem_range.2 hab, List.mem_flatMap.2 ⟨f, hf, he⟩⟩

theorem stored : ∀ level < kNumLevels, ∀ f ∈ version level, Stored zeroCrc opts files f
    (tables f.number) := by
  have hfile : ∀ level < kNumLevels, ∀ f ∈ version level,
      f.file_size = (build zeroCrc opts (encodeEntries (tables f.number))).length ∧
        (build zeroCrc opts (encodeEntries (tables f.number))).length < 2 ^ 32 ∧
        ∀ e ∈ tables f.number, e.1.sequence ≤ kMaxSequenceNumber := by decide +kernel
  intro level hlevel f hf
  obtain ⟨hsize, hlt, hsequence⟩ := hfile level hlevel f hf
  exact ⟨by decide, fun cs hcs => Table.fits_of_length_lt (hcs ▸ hlt), rfl, hsize, hsequence⟩

end TwoLevels

/-- The lookup at 8 passes the deletion by and finds `b`. -/
theorem versionGet_newest_two_levels :
    Layered TwoLevels.tables TwoLevels.version ∧
      ∃ r stats, versionGet zeroCrc true true TwoLevels.files TwoLevels.version [107] 8 [] =
          ((readStatus [] r).1, (readStatus [] r).2, stats) ∧
        ∀ r', Reads (versionEntries TwoLevels.tables TwoLevels.version) [107] 8 r' ↔ r' = r :=
  ⟨TwoLevels.layered, versionGet_newest zeroCrc (fun _ => TwoLevels.opts) true true
    TwoLevels.files TwoLevels.tables TwoLevels.version [107] 8 [] TwoLevels.layered (by decide)
    TwoLevels.stored⟩

end Bourbon
