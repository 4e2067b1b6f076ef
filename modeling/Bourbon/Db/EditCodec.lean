import Mathlib.Data.Finset.Sort
import Mathlib.Data.Prod.Lex
import Bourbon.Util.Coding
import Bourbon.Db.VersionEdit
import Bourbon.Table.Block

/-!
# The bytes of a version edit

`VersionEdit::EncodeTo` writes tagged fields, `DecodeFrom` reads them from a slice of the memory.

* `EditFields.decodeFrom` : the decoder, for any way to read the input (`InputReader`);
* `IsField` : the well-formed fields;
* `decodeLoop_fields`, `decodeLoop_sound` : strings of such fields are accepted, and no others;
* `versionEdit_codec` : edits read back, and what the decoder reads and accepts;
* `decodeFrom_forgets_iff` : which two objects are the same after decoding.
-/

namespace Bourbon

open List Function

open Reader

/-- `uint64_t`. -/
abbrev Uint64 := Fin (2 ^ 64)

/-- The data of a file that a version edit holds; keys are the strings of internal keys. -/
structure EditFile where
  number : Uint64
  file_size : Uint64
  smallest : Bytes
  largest : Bytes
  deriving DecidableEq

/-- The contents of a `VersionEdit`.  A number that is not set is missing. -/
structure EditFields where
  comparator : Option Bytes
  log_number : Option Uint64
  prev_log_number : Option Uint64
  next_file_number : Option Uint64
  last_sequence : Option Uint64
  compact_pointers : List (ℕ × Bytes)
  deleted_files : Finset (ℕ ×ₗ Uint64)
  new_files : List (ℕ × EditFile)
  deriving DecidableEq

/-- The fields of the format. -/
inductive Field where
  | comparator (name : Bytes)
  | logNumber (n : Uint64)
  | prevLogNumber (n : Uint64)
  | nextFileNumber (n : Uint64)
  | lastSequence (n : Uint64)
  | compactPointer (level : ℕ) (key : Bytes)
  | deletedFile (level : ℕ) (number : Uint64)
  | newFile (level : ℕ) (f : EditFile)

/-- The tags of the fields. -/
@[match_pattern] abbrev kComparator : ℕ := 1

/-- Tag of the log number. -/
@[match_pattern] abbrev kLogNumber : ℕ := 2

/-- Tag of the next file number. -/
@[match_pattern] abbrev kNextFileNumber : ℕ := 3

/-- Tag of the last sequence number. -/
@[match_pattern] abbrev kLastSequence : ℕ := 4

/-- Tag of a compaction pointer. -/
@[match_pattern] abbrev kCompactPointer : ℕ := 5

/-- Tag of a deleted file. -/
@[match_pattern] abbrev kDeletedFile : ℕ := 6

/-- Tag of a new file. -/
@[match_pattern] abbrev kNewFile : ℕ := 7

/-- Tag of the number before it; 8 is not used. -/
@[match_pattern] abbrev kPrevLogNumber : ℕ := 9

namespace Field

/-- The tag of a field. -/
def tag : Field → ℕ
  | .comparator _ => kComparator
  | .logNumber _ => kLogNumber
  | .prevLogNumber _ => kPrevLogNumber
  | .nextFileNumber _ => kNextFileNumber
  | .lastSequence _ => kLastSequence
  | .compactPointer _ _ => kCompactPointer
  | .deletedFile _ _ => kDeletedFile
  | .newFile _ _ => kNewFile

/-- What `EncodeTo` writes behind the tag. -/
def payload : Field → Bytes
  | .comparator name => putLengthPrefixedSlice name
  | .logNumber n => encodeVarint64 n
  | .prevLogNumber n => encodeVarint64 n
  | .nextFileNumber n => encodeVarint64 n
  | .lastSequence n => encodeVarint64 n
  | .compactPointer level key => encodeVarint32 level ++ putLengthPrefixedSlice key
  | .deletedFile level number => encodeVarint32 level ++ encodeVarint64 number
  | .newFile level f =>
    encodeVarint32 level ++ (encodeVarint64 f.number ++ (encodeVarint64 f.file_size ++
      (putLengthPrefixedSlice f.smallest ++ putLengthPrefixedSlice f.largest)))

/-- A field behind its tag. -/
def encode (field : Field) : Bytes := encodeVarint32 field.tag ++ field.payload

/-- The keys of a field; `InternalKey::Encode` asserts that they are not empty. -/
def keys : Field → List Bytes
  | .compactPointer _ key => [key]
  | .newFile _ f => [f.smallest, f.largest]
  | _ => []

/-- The strings of a field. -/
def strings : Field → List Bytes
  | .comparator name => [name]
  | field => field.keys

/-- The levels of a field. -/
def levels : Field → List ℕ
  | .compactPointer level _ => [level]
  | .deletedFile level _ => [level]
  | .newFile level _ => [level]
  | _ => []

end Field

namespace EditFields

/-- A new object. -/
def new : EditFields := ⟨none, none, none, none, none, [], ∅, []⟩

/-- `Clear`. -/
def clear (edit : EditFields) : EditFields :=
  { edit with
    comparator := none, log_number := none, prev_log_number := none, last_sequence := none
    next_file_number := none, deleted_files := ∅, new_files := [] }

/-- The fields in the order in which they are written. -/
def fields (edit : EditFields) : List Field :=
  edit.comparator.toList.map .comparator ++ edit.log_number.toList.map .logNumber ++
    edit.prev_log_number.toList.map .prevLogNumber ++
    edit.next_file_number.toList.map .nextFileNumber ++
    edit.last_sequence.toList.map .lastSequence ++
    edit.compact_pointers.map (fun p => .compactPointer p.1 p.2) ++
    (edit.deleted_files.sort (· ≤ ·)).map (fun p => .deletedFile (ofLex p).1 (ofLex p).2) ++
    edit.new_files.map fun p => .newFile p.1 p.2

/-- `EncodeTo`; `none` is a failed assertion. -/
def encodeTo (edit : EditFields) : Option Bytes :=
  if ∀ field ∈ edit.fields, ∀ key ∈ field.keys, key ≠ [] then
    some (edit.fields.flatMap Field.encode)
  else none

/-- What `DecodeFrom` does with a field that it has read. -/
def apply (edit : EditFields) : Field → EditFields
  | .comparator name => { edit with comparator := some name }
  | .logNumber n => { edit with log_number := some n }
  | .prevLogNumber n => { edit with prev_log_number := some n }
  | .nextFileNumber n => { edit with next_file_number := some n }
  | .lastSequence n => { edit with last_sequence := some n }
  | .compactPointer level key =>
    { edit with compact_pointers := edit.compact_pointers ++ [(level, key)] }
  | .deletedFile level number =>
    { edit with deleted_files := insert (toLex (level, number)) edit.deleted_files }
  | .newFile level f => { edit with new_files := edit.new_files ++ [(level, f)] }

end EditFields

/-! ### Decoding -/

/-- The functions of `util/coding.h` that take something from the front of an input. -/
structure InputReader (ι : Type*) where
  getVarint32 : ι → Option (ℕ × ι)
  getVarint64 : ι → Option (ℕ × ι)
  getLengthPrefixedSlice : ι → Option (Bytes × ι)
  empty : ι → Bool

section

variable {ι : Type*} (r : InputReader ι)

/-- `GetLevel`. -/
def getLevel (input : ι) : Option (ℕ × ι) :=
  (r.getVarint32 input).bind fun v => if v.1 < kNumLevels then some v else none

/-- `GetVarint64` into a `uint64_t`. -/
def getUint64 (input : ι) : Option (Uint64 × ι) :=
  (r.getVarint64 input).map fun n => (Fin.ofNat _ n.1, n.2)

/-- The result of a part of the `switch` of `DecodeFrom`. -/
def orMessage (msg : String) (field : Option (Field × ι)) : Except String (Field × ι) :=
  field.elim (.error msg) .ok

/-- The `switch` of `DecodeFrom`: a field behind its tag, or the message of the error. -/
def decodeField (tag : ℕ) (input : ι) : Except String (Field × ι) :=
  match tag with
  | kComparator => orMessage "comparator name" <|
    (r.getLengthPrefixedSlice input).map fun str => (.comparator str.1, str.2)
  | kLogNumber => orMessage "log number" <|
    (getUint64 r input).map fun n => (.logNumber n.1, n.2)
  | kPrevLogNumber => orMessage "previous log number" <|
    (getUint64 r input).map fun n => (.prevLogNumber n.1, n.2)
  | kNextFileNumber => orMessage "next file number" <|
    (getUint64 r input).map fun n => (.nextFileNumber n.1, n.2)
  | kLastSequence => orMessage "last sequence number" <|
    (getUint64 r input).map fun n => (.lastSequence n.1, n.2)
  | kCompactPointer => orMessage "compaction pointer" <|
    (getLevel r input).bind fun level =>
      (r.getLengthPrefixedSlice level.2).map fun key => (.compactPointer level.1 key.1, key.2)
  | kDeletedFile => orMessage "deleted file" <|
    (getLevel r input).bind fun level =>
      (getUint64 r level.2).map fun number => (.deletedFile level.1 number.1, number.2)
  | kNewFile => orMessage "new-file entry" <|
    (getLevel r input).bind fun level =>
      (getUint64 r level.2).bind fun number =>
        (getUint64 r number.2).bind fun file_size =>
          (r.getLengthPrefixedSlice file_size.2).bind fun smallest =>
            (r.getLengthPrefixedSlice smallest.2).map fun largest =>
              (.newFile level.1 ⟨number.1, file_size.1, smallest.1, largest.1⟩, largest.2)
  | _ => .error "unknown tag"

/-- The loop of `DecodeFrom`: the object behind it and the message, if there is one. -/
def decodeLoop : ℕ → EditFields → ι → Option (EditFields × Option String)
  | 0, _, _ => none
  | fuel + 1, edit, input =>
    match r.getVarint32 input with
    | none => some (edit, if r.empty input then none else some "invalid tag")
    | some (tag, input) =>
      match decodeField r tag input with
      | .error msg => some (edit, some msg)
      | .ok (field, input) => decodeLoop fuel (edit.apply field) input

end

/-- A `Slice`: the address of its first byte and its size. -/
structure Span where
  data : ℕ
  size : ℕ

/-- The bytes of a slice. -/
def Span.bytes (mem : ℕ → UInt8) (s : Span) : Bytes := (List.range' s.data s.size).map mem

namespace Memory

/-- The loop of `GetVarint32PtrFallback` and `GetVarint64Ptr`. -/
def varintAt (w : ℕ) (mem : ℕ → UInt8) (limit : ℕ) : ℕ → ℕ → ℕ → ℕ → Option (ℕ × ℕ)
  | 0, _, _, _ => none
  | n + 1, shift, result, p =>
    if p < limit then
      if (mem p).toNat &&& 128 ≠ 0 then
        varintAt w mem limit n (shift + 7) (result ||| (((mem p).toNat &&& 127) <<< shift) % 2 ^ w)
          (p + 1)
      else some (result ||| ((mem p).toNat <<< shift) % 2 ^ w, p + 1)
    else none

/-- `GetVarint32Ptr`. -/
def varint32At (mem : ℕ → UInt8) (limit p : ℕ) : Option (ℕ × ℕ) :=
  if p < limit ∧ (mem p).toNat &&& 128 = 0 then some ((mem p).toNat, p + 1)
  else varintAt 32 mem limit 5 0 0 p

/-- The input behind a pointer that a reader has returned. -/
def behind (input : Span) (q : ℕ × ℕ) : ℕ × Span := (q.1, ⟨q.2, input.data + input.size - q.2⟩)

/-- The readers of `util/coding.cc`, on the memory. -/
def reader (mem : ℕ → UInt8) : InputReader Span where
  getVarint32 input := (varint32At mem (input.data + input.size) input.data).map (behind input)
  getVarint64 input :=
    (varintAt 64 mem (input.data + input.size) 10 0 0 input.data).map (behind input)
  getLengthPrefixedSlice input :=
    ((varint32At mem (input.data + input.size) input.data).map (behind input)).bind fun len =>
      if len.1 ≤ len.2.size then
        some (Span.bytes mem ⟨len.2.data, len.1⟩, ⟨len.2.data + len.1, len.2.size - len.1⟩)
      else none
  empty input := input.size = 0

end Memory

/-- `DecodeFrom` of a slice of the memory; every round takes a byte. -/
def EditFields.decodeFrom (mem : ℕ → UInt8) (edit : EditFields) (src : Span) :
    Option (EditFields × Status) :=
  (decodeLoop (Memory.reader mem) (src.size + 1) edit.clear src).map fun r =>
    (r.1, r.2.elim .ok fun msg => .corruption ("VersionEdit: " ++ msg))

/-- The readers on the list of the bytes that are left. -/
def bytesReader : InputReader Bytes :=
  ⟨getVarint32Ptr, getVarint64Ptr, getLengthPrefixedSlice, List.isEmpty⟩

/-! ### Memory and bytes -/

/-- The readers `r` see an input as the readers `r'` see what it stands for. -/
structure Simulates {ι ι' : Type*} (r : InputReader ι) (r' : InputReader ι') (abs : ι → ι') :
    Prop where
  getVarint32 : ∀ i, r'.getVarint32 (abs i) = (r.getVarint32 i).map (Prod.map id abs)
  getVarint64 : ∀ i, r'.getVarint64 (abs i) = (r.getVarint64 i).map (Prod.map id abs)
  getLengthPrefixedSlice : ∀ i, r'.getLengthPrefixedSlice (abs i) =
    (r.getLengthPrefixedSlice i).map (Prod.map id abs)
  empty : ∀ i, r'.empty (abs i) = r.empty i

namespace Simulates

variable {ι ι' : Type*} {r : InputReader ι} {r' : InputReader ι'} {abs : ι → ι'}

theorem getLevel (h : Simulates r r' abs) (i : ι) :
    Bourbon.getLevel r' (abs i) = (Bourbon.getLevel r i).map (Prod.map id abs) := by
  rw [Bourbon.getLevel, Bourbon.getLevel, h.getVarint32]
  cases r.getVarint32 i with
  | none => rfl
  | some v =>
    simp only [Option.map_some, Option.bind_some, Prod.map_fst, id_eq]
    split_ifs <;> rfl

theorem getUint64 (h : Simulates r r' abs) (i : ι) :
    Bourbon.getUint64 r' (abs i) = (Bourbon.getUint64 r i).map (Prod.map id abs) := by
  rw [Bourbon.getUint64, Bourbon.getUint64, h.getVarint64, Option.map_map, Option.map_map]
  rfl

theorem orMessage (msg : String) (field : Option (Field × ι)) :
    Bourbon.orMessage msg (field.map (Prod.map id abs)) =
      (Bourbon.orMessage msg field).map (Prod.map id abs) := by
  cases field <;> rfl

theorem decodeField (h : Simulates r r' abs) (tag : ℕ) (i : ι) :
    Bourbon.decodeField r' tag (abs i) = (Bourbon.decodeField r tag i).map (Prod.map id abs) := by
  unfold Bourbon.decodeField
  split
  case h_9 => rfl
  all_goals
    rw [← orMessage]
    simp only [h.getLengthPrefixedSlice, h.getLevel, h.getUint64, Option.map_map, Option.bind_map,
      Option.map_bind, comp_def, Prod.map_fst, Prod.map_snd, id_eq, Prod.map_apply]

theorem decodeLoop (h : Simulates r r' abs) (fuel : ℕ) (edit : EditFields) (i : ι) :
    Bourbon.decodeLoop r' fuel edit (abs i) = Bourbon.decodeLoop r fuel edit i := by
  induction fuel generalizing edit i with
  | zero => rfl
  | succ fuel ih =>
    rw [Bourbon.decodeLoop, Bourbon.decodeLoop, h.getVarint32]
    cases r.getVarint32 i with
    | none => simp only [Option.map_none, h.empty]
    | some v =>
      simp only [Option.map_some, Prod.map_fst, Prod.map_snd, id_eq, h.decodeField]
      cases Bourbon.decodeField r v.1 v.2 with
      | error msg => rfl
      | ok field => exact ih _ _

end Simulates

theorem Span.length_bytes (mem : ℕ → UInt8) (s : Span) : (s.bytes mem).length = s.size := by
  rw [bytes, length_map, length_range']

namespace Memory

variable {mem : ℕ → UInt8} {w limit p : ℕ}

theorem bytes_of_lt (h : p < limit) :
    Span.bytes mem ⟨p, limit - p⟩ = mem p :: Span.bytes mem ⟨p + 1, limit - (p + 1)⟩ := by
  rw [Span.bytes, Span.bytes, show limit - p = limit - (p + 1) + 1 by omega, List.range'_succ,
    map_cons]

theorem bytes_of_ge (h : limit ≤ p) : Span.bytes mem ⟨p, limit - p⟩ = [] := by
  rw [Span.bytes, Nat.sub_eq_zero_of_le h, List.range'_zero, map_nil]

/-- A pointer that a reader has returned, and the bytes that it reads from there. -/
theorem varintLoop_bytes (n shift result : ℕ) :
    varintLoop w n shift result (Span.bytes mem ⟨p, limit - p⟩) =
      (varintAt w mem limit n shift result p).map
        fun q => (q.1, Span.bytes mem ⟨q.2, limit - q.2⟩) := by
  induction n generalizing shift result p with
  | zero => rfl
  | succ n ih =>
    rw [varintAt]
    split_ifs with hlt hb
    · rw [bytes_of_lt hlt, varintLoop, if_pos hb, ih]
    · rw [bytes_of_lt hlt, varintLoop, if_neg hb, Option.map_some]
    · rw [bytes_of_ge (not_lt.1 hlt)]
      rfl

theorem getVarint32Ptr_bytes : getVarint32Ptr (Span.bytes mem ⟨p, limit - p⟩) =
    (varint32At mem limit p).map fun q => (q.1, Span.bytes mem ⟨q.2, limit - q.2⟩) := by
  rw [varint32At]
  rcases lt_or_ge p limit with hlt | hge
  · rw [bytes_of_lt hlt, getVarint32Ptr, ← bytes_of_lt hlt]
    split_ifs with h1 h2 h3
    · rfl
    · exact absurd ⟨hlt, h1⟩ h2
    · exact absurd h3.2 h1
    · exact varintLoop_bytes 5 0 0
  · rw [if_neg fun h => absurd h.1 (not_lt.2 hge), ← varintLoop_bytes, bytes_of_ge hge]
    rfl

/-- **Reading the memory is reading the bytes of the slice.** -/
theorem simulates (mem : ℕ → UInt8) : Simulates (reader mem) bytesReader (Span.bytes mem) := by
  have hspan : ∀ i : Span,
      Span.bytes mem i = Span.bytes mem ⟨i.data, i.data + i.size - i.data⟩ := by
    intro i
    rw [Nat.add_sub_cancel_left]
  have h32 : ∀ i, getVarint32Ptr (Span.bytes mem i) = (((varint32At mem (i.data + i.size)
      i.data).map (behind i)).map (Prod.map id (Span.bytes mem)) : Option (ℕ × Bytes)) := by
    intro i
    rw [hspan i, getVarint32Ptr_bytes, Option.map_map]
    rfl
  refine ⟨h32, fun i => ?_, fun i => ?_, fun i => ?_⟩
  · simp only [bytesReader, reader, getVarint64Ptr]
    rw [hspan i, varintLoop_bytes, Option.map_map]
    rfl
  · simp only [bytesReader, reader, getLengthPrefixedSlice, h32]
    cases (varint32At mem (i.data + i.size) i.data).map (behind i) with
    | none => rfl
    | some len =>
      obtain ⟨len, p, size⟩ := len
      simp only [Option.map_some, Option.bind_some, Prod.map_fst, Prod.map_snd, id_eq,
        Span.length_bytes]
      split_ifs with hle
      · have hsplit : Span.bytes mem ⟨p, size⟩ =
            Span.bytes mem ⟨p, len⟩ ++ Span.bytes mem ⟨p + len, size - len⟩ := by
          simp only [Span.bytes, ← map_append, List.range'_append_1, Nat.add_sub_cancel' hle]
        simp only [Option.map_some, Prod.map_apply, id_eq, hsplit,
          take_left' (Span.length_bytes mem ⟨p, len⟩),
          drop_left' (Span.length_bytes mem ⟨p, len⟩)]
      · rfl
  · simp only [bytesReader, reader, Span.bytes]
    cases i.size <;> rfl

end Memory

theorem decodeLoop_bytes (mem : ℕ → UInt8) (fuel : ℕ) (edit : EditFields) (src : Span) :
    decodeLoop (Memory.reader mem) fuel edit src =
      decodeLoop bytesReader fuel edit (src.bytes mem) :=
  ((Memory.simulates mem).decodeLoop fuel edit src).symm

/-! ### Well-formed fields -/

/-- A well-formed field behind its tag. -/
def Field.IsPayload : Field → Bytes → Prop
  | .comparator name, b => Reader.Reads getLengthPrefixedSlice name b
  | .logNumber n, b => Reader.Reads getVarint64Ptr n b
  | .prevLogNumber n, b => Reader.Reads getVarint64Ptr n b
  | .nextFileNumber n, b => Reader.Reads getVarint64Ptr n b
  | .lastSequence n, b => Reader.Reads getVarint64Ptr n b
  | .compactPointer level key, b => ∃ b₁ b₂, b = b₁ ++ b₂ ∧ level < kNumLevels ∧
    Reader.Reads getVarint32Ptr level b₁ ∧ Reader.Reads getLengthPrefixedSlice key b₂
  | .deletedFile level number, b => ∃ b₁ b₂, b = b₁ ++ b₂ ∧ level < kNumLevels ∧
    Reader.Reads getVarint32Ptr level b₁ ∧ Reader.Reads getVarint64Ptr number b₂
  | .newFile level f, b => ∃ b₁ b₂ b₃ b₄ b₅, b = b₁ ++ (b₂ ++ (b₃ ++ (b₄ ++ b₅))) ∧
    level < kNumLevels ∧ Reader.Reads getVarint32Ptr level b₁ ∧
    Reader.Reads getVarint64Ptr f.number b₂ ∧
    Reader.Reads getVarint64Ptr f.file_size b₃ ∧ Reader.Reads getLengthPrefixedSlice f.smallest b₄ ∧
    Reader.Reads getLengthPrefixedSlice f.largest b₅

/-- A well-formed field: the tag and what belongs to it. -/
def IsField (field : Field) (b : Bytes) : Prop :=
  ∃ b₁ b₂, b = b₁ ++ b₂ ∧ Reader.Reads getVarint32Ptr field.tag b₁ ∧ field.IsPayload b₂

variable {field : Field} {b p rest : Bytes} {tag level : ℕ} {n : Uint64}

theorem reads_getLevel (h : Reader.Reads getVarint32Ptr level b) (hlevel : level < kNumLevels) :
    Reader.Reads (getLevel bytesReader) level b := by
  intro rest
  simp only [getLevel, bytesReader, h rest, Option.bind_some, if_pos hlevel]

theorem reads_getUint64 (h : Reader.Reads getVarint64Ptr n b) :
    Reader.Reads (getUint64 bytesReader) n b := by
  intro rest
  simp only [getUint64, bytesReader, h rest, Option.map_some, Fin.ofNat_val_eq_self]

theorem getLevel_inv (h : getLevel bytesReader p = some (level, rest)) :
    ∃ b, p = b ++ rest ∧ level < kNumLevels ∧ Reader.Reads getVarint32Ptr level b := by
  obtain ⟨v, hv, h⟩ := Option.bind_eq_some_iff.1 h
  obtain ⟨hlevel, heq⟩ := Option.ite_none_right_eq_some.1 h
  obtain rfl := Option.some.inj heq
  obtain ⟨b, -, hp, hb⟩ := local_getVarint32Ptr hv
  exact ⟨b, hp, hlevel, hb⟩

theorem getUint64_inv (h : getUint64 bytesReader p = some (n, rest)) :
    ∃ b, p = b ++ rest ∧ Reader.Reads getVarint64Ptr n b := by
  obtain ⟨v, hv, heq⟩ := Option.map_eq_some_iff.1 h
  obtain ⟨rfl, rfl⟩ := Prod.mk.inj heq
  obtain ⟨b, -, hp, hb⟩ := local_getVarint64Ptr hv
  have hlt : v.1 < 2 ^ 64 := varintLoop_lt 10 0 0 (by decide) hv
  refine ⟨b, hp, ?_⟩
  rwa [Fin.val_ofNat, Nat.mod_eq_of_lt hlt]

theorem slice_inv {str : Bytes} (h : bytesReader.getLengthPrefixedSlice p = some (str, rest)) :
    ∃ b, p = b ++ rest ∧ Reader.Reads getLengthPrefixedSlice str b := by
  obtain ⟨b, -, hp, hb⟩ := local_getLengthPrefixedSlice h
  exact ⟨b, hp, hb⟩

theorem decodeField_of_isPayload (h : field.IsPayload b) (rest : Bytes) :
    decodeField bytesReader field.tag (b ++ rest) = .ok (field, rest) := by
  cases field with
  | comparator name =>
    have h : bytesReader.getLengthPrefixedSlice (b ++ rest) = some (name, rest) := h rest
    simp only [decodeField, Field.tag, h, Option.map_some, orMessage, Option.elim_some]
  | logNumber n | prevLogNumber n | nextFileNumber n | lastSequence n =>
    simp only [decodeField, Field.tag, reads_getUint64 h rest, Option.map_some, orMessage,
      Option.elim_some]
  | compactPointer level key =>
    obtain ⟨b₁, b₂, rfl, hlevel, h₁, h₂⟩ := h
    have h₂ : bytesReader.getLengthPrefixedSlice (b₂ ++ rest) = some (key, rest) := h₂ rest
    simp only [decodeField, Field.tag, append_assoc, reads_getLevel h₁ hlevel _, h₂,
      Option.bind_some, Option.map_some, orMessage, Option.elim_some]
  | deletedFile level number =>
    obtain ⟨b₁, b₂, rfl, hlevel, h₁, h₂⟩ := h
    simp only [decodeField, Field.tag, append_assoc, reads_getLevel h₁ hlevel _,
      reads_getUint64 h₂ _, Option.bind_some, Option.map_some, orMessage, Option.elim_some]
  | newFile level f =>
    obtain ⟨b₁, b₂, b₃, b₄, b₅, rfl, hlevel, h₁, h₂, h₃, h₄, h₅⟩ := h
    have h₄ : ∀ q, bytesReader.getLengthPrefixedSlice (b₄ ++ q) = some (f.smallest, q) := h₄
    have h₅ : ∀ q, bytesReader.getLengthPrefixedSlice (b₅ ++ q) = some (f.largest, q) := h₅
    simp only [decodeField, Field.tag, append_assoc, reads_getLevel h₁ hlevel _,
      reads_getUint64 h₂ _, reads_getUint64 h₃ _, h₄, h₅, Option.bind_some,
      Option.map_some, orMessage,
      Option.elim_some]

theorem orMessage_eq_ok {ι : Type*} {msg : String} {x : Option (Field × ι)} {y : Field × ι} :
    orMessage msg x = .ok y ↔ x = some y := by
  cases x <;> simp [orMessage]

/-- What is read is a well-formed field. -/
theorem isPayload_of_decodeField (h : decodeField bytesReader tag p = .ok (field, rest)) :
    field.tag = tag ∧ ∃ b, p = b ++ rest ∧ field.IsPayload b := by
  unfold decodeField at h
  split at h
  case h_9 => cases h
  all_goals
    simp only [orMessage_eq_ok, Option.bind_eq_some_iff, Option.map_eq_some_iff, Prod.exists,
      Prod.mk.injEq] at h
  case h_1 =>
    obtain ⟨str, _, hstr, rfl, rfl⟩ := h
    exact ⟨rfl, slice_inv hstr⟩
  case h_2 | h_3 | h_4 | h_5 =>
    obtain ⟨n, _, hn, rfl, rfl⟩ := h
    exact ⟨rfl, getUint64_inv hn⟩
  case h_6 =>
    obtain ⟨level, _, h₁, key, _, h₂, rfl, rfl⟩ := h
    obtain ⟨b₁, rfl, hlevel, r₁⟩ := getLevel_inv h₁
    obtain ⟨b₂, rfl, r₂⟩ := slice_inv h₂
    exact ⟨rfl, b₁ ++ b₂, (append_assoc ..).symm, b₁, b₂, rfl, hlevel, r₁, r₂⟩
  case h_7 =>
    obtain ⟨level, _, h₁, number, _, h₂, rfl, rfl⟩ := h
    obtain ⟨b₁, rfl, hlevel, r₁⟩ := getLevel_inv h₁
    obtain ⟨b₂, rfl, r₂⟩ := getUint64_inv h₂
    exact ⟨rfl, b₁ ++ b₂, (append_assoc ..).symm, b₁, b₂, rfl, hlevel, r₁, r₂⟩
  case h_8 =>
    obtain ⟨level, _, h₁, number, _, h₂, file_size, _, h₃, smallest, _, h₄, largest, _, h₅, rfl,
      rfl⟩ := h
    obtain ⟨b₁, rfl, hlevel, r₁⟩ := getLevel_inv h₁
    obtain ⟨b₂, rfl, r₂⟩ := getUint64_inv h₂
    obtain ⟨b₃, rfl, r₃⟩ := getUint64_inv h₃
    obtain ⟨b₄, rfl, r₄⟩ := slice_inv h₄
    obtain ⟨b₅, rfl, r₅⟩ := slice_inv h₅
    exact ⟨rfl, b₁ ++ (b₂ ++ (b₃ ++ (b₄ ++ b₅))), by simp only [append_assoc],
      b₁, b₂, b₃, b₄, b₅, rfl, hlevel, r₁, r₂, r₃, r₄, r₅⟩

/-! ### The loop -/

variable {edit edit' : EditFields} {fuel : ℕ}

theorem IsField.length_pos (h : IsField field b) : 0 < b.length := by
  obtain ⟨b₁, b₂, rfl, h₁, -⟩ := h
  have := local_getVarint32Ptr.length_lt (h₁ [])
  rw [append_nil, length_nil] at this
  rw [length_append]
  omega

theorem decodeLoop_field (h : IsField field b) (rest : Bytes) :
    decodeLoop bytesReader (fuel + 1) edit (b ++ rest) =
      decodeLoop bytesReader fuel (edit.apply field) rest := by
  obtain ⟨b₁, b₂, rfl, h₁, h₂⟩ := h
  have h₁ : bytesReader.getVarint32 (b₁ ++ b₂ ++ rest) = some (field.tag, b₂ ++ rest) := by
    rw [append_assoc]
    exact h₁ _
  simp only [decodeLoop, h₁, decodeField_of_isPayload h₂]

/-- **Fields one behind the other are accepted**, and applied in their order. -/
theorem decodeLoop_fields (fs : List (Field × Bytes)) (hfs : ∀ x ∈ fs, IsField x.1 x.2)
    (hfuel : (fs.flatMap Prod.snd).length < fuel) :
    decodeLoop bytesReader fuel edit (fs.flatMap Prod.snd) =
      some ((fs.map Prod.fst).foldl EditFields.apply edit, none) := by
  induction fs generalizing edit fuel with
  | nil =>
    obtain ⟨fuel, rfl⟩ := Nat.exists_eq_succ_of_ne_zero (Nat.ne_zero_of_lt hfuel)
    rfl
  | cons x fs ih =>
    obtain ⟨fuel, rfl⟩ := Nat.exists_eq_succ_of_ne_zero (Nat.ne_zero_of_lt hfuel)
    have hx := hfs x mem_cons_self
    have hpos := hx.length_pos
    rw [flatMap_cons, length_append] at hfuel
    rw [flatMap_cons, decodeLoop_field hx,
      ih (fun y hy => hfs y (mem_cons_of_mem x hy)) (by omega)]
    rfl

/-- **The loop ends, and what it accepts are fields.** -/
theorem decodeLoop_sound (edit : EditFields) (hfuel : p.length < fuel) :
    ∃ edit' msg, decodeLoop bytesReader fuel edit p = some (edit', msg) ∧
      (msg = none → ∃ fs : List (Field × Bytes), (∀ x ∈ fs, IsField x.1 x.2) ∧
        p = fs.flatMap Prod.snd ∧ edit' = (fs.map Prod.fst).foldl EditFields.apply edit) := by
  induction fuel generalizing edit p with
  | zero => omega
  | succ fuel ih =>
    rw [decodeLoop]
    cases htag : bytesReader.getVarint32 p with
    | none =>
      refine ⟨_, _, rfl, fun hmsg => ⟨[], by simp, ?_, rfl⟩⟩
      split_ifs at hmsg with hempty
      exact isEmpty_iff.1 hempty
    | some v =>
      obtain ⟨b₁, hne, rfl, hb₁⟩ := local_getVarint32Ptr htag
      have hpos := length_pos_iff.2 hne
      rw [length_append] at hfuel
      dsimp only
      cases hfield : decodeField bytesReader v.1 v.2 with
      | error msg => exact ⟨_, _, rfl, fun h => by cases h⟩
      | ok x =>
        obtain ⟨htag', b₂, hrest, hb₂⟩ := isPayload_of_decodeField hfield
        have hlen := congrArg List.length hrest
        rw [length_append] at hlen
        obtain ⟨edit', msg, hloop, hsound⟩ := ih (edit.apply x.1) (p := x.2) (by omega)
        refine ⟨edit', msg, hloop, fun hmsg => ?_⟩
        obtain ⟨fs, hfs, hx, rfl⟩ := hsound hmsg
        refine ⟨(x.1, b₁ ++ b₂) :: fs, ?_, ?_, rfl⟩
        · rintro y hy
          rcases mem_cons.1 hy with rfl | hy
          · exact ⟨b₁, b₂, rfl, htag' ▸ hb₁, hb₂⟩
          · exact hfs y hy
        · rw [flatMap_cons, ← hx, append_assoc, ← hrest]

/-! ### What is written -/

/-- The edit keeps to the limits of the format. -/
structure EditFields.Writable (edit : EditFields) : Prop where
  levels : ∀ field ∈ edit.fields, ∀ level ∈ field.levels, level < kNumLevels
  keys : ∀ field ∈ edit.fields, ∀ key ∈ field.keys, key ≠ []
  strings : ∀ field ∈ edit.fields, ∀ str ∈ field.strings, str.length < 2 ^ 32

theorem reads_encodeVarint64 (n : Uint64) : Reader.Reads getVarint64Ptr n.val (encodeVarint64 n) :=
  getVarint64Ptr_encodeVarint64 n.isLt

theorem reads_putLengthPrefixedSlice {str : Bytes} (h : str.length < 2 ^ 32) :
    Reader.Reads getLengthPrefixedSlice str (putLengthPrefixedSlice str) :=
  getLengthPrefixedSlice_putLengthPrefixedSlice h

theorem Field.isField_encode (field : Field) (hlevels : ∀ level ∈ field.levels, level < kNumLevels)
    (hstrings : ∀ str ∈ field.strings, str.length < 2 ^ 32) : IsField field field.encode := by
  have hlevel : ∀ {level : ℕ}, level < kNumLevels →
      Reader.Reads getVarint32Ptr level (encodeVarint32 level) := fun h =>
    getVarint32Ptr_encodeVarint32 (h.trans (by decide))
  refine ⟨_, _, rfl, getVarint32Ptr_encodeVarint32
    (by cases field <;> simp only [tag] <;> decide), ?_⟩
  cases field with
  | comparator name => exact reads_putLengthPrefixedSlice (hstrings name mem_cons_self)
  | logNumber n | prevLogNumber n | nextFileNumber n | lastSequence n =>
    exact reads_encodeVarint64 n
  | compactPointer level key =>
    have h := hlevels level mem_cons_self
    exact ⟨_, _, rfl, h, hlevel h, reads_putLengthPrefixedSlice (hstrings key mem_cons_self)⟩
  | deletedFile level number =>
    have h := hlevels level mem_cons_self
    exact ⟨_, _, rfl, h, hlevel h, reads_encodeVarint64 number⟩
  | newFile level f =>
    have h := hlevels level mem_cons_self
    exact ⟨_, _, _, _, _, rfl, h, hlevel h, reads_encodeVarint64 f.number,
      reads_encodeVarint64 f.file_size,
      reads_putLengthPrefixedSlice (hstrings f.smallest mem_cons_self),
      reads_putLengthPrefixedSlice (hstrings f.largest (mem_cons_of_mem _ mem_cons_self))⟩

theorem EditFields.foldl_apply_fields (edit : EditFields) :
    edit.fields.foldl apply new = edit := by
  have hpointers : ∀ (l : List (ℕ × Bytes)) (e : EditFields),
      (l.map fun p => Field.compactPointer p.1 p.2).foldl apply e =
        { e with compact_pointers := e.compact_pointers ++ l } := by
    intro l
    induction l with
    | nil => simp
    | cons p l ih => intro e; simp [ih, apply]
  have hdeleted : ∀ (l : List (ℕ ×ₗ Uint64)) (e : EditFields),
      (l.map fun p => Field.deletedFile (ofLex p).1 (ofLex p).2).foldl apply e =
        { e with deleted_files := e.deleted_files ∪ l.toFinset } := by
    intro l
    induction l with
    | nil => simp
    | cons p l ih =>
      intro e
      simp [ih, apply]
  have hnew : ∀ (l : List (ℕ × EditFile)) (e : EditFields),
      (l.map fun p => Field.newFile p.1 p.2).foldl apply e =
        { e with new_files := e.new_files ++ l } := by
    intro l
    induction l with
    | nil => simp
    | cons p l ih => intro e; simp [ih, apply]
  obtain ⟨comparator, log, prev, next, last, pointers, deleted, files⟩ := edit
  simp only [fields, foldl_append, hpointers, hdeleted, hnew, Finset.sort_toFinset]
  cases comparator <;> cases log <;> cases prev <;> cases next <;> cases last <;>
    simp [new, apply]

namespace EditFields

/-- **Edits read back.** -/
theorem decodeFrom_encodeTo {edit : EditFields} (h : edit.Writable) :
    ∃ bytes, edit.encodeTo = some bytes ∧ ∀ mem (src : Span), src.bytes mem = bytes →
      new.decodeFrom mem src = some (edit, .ok) := by
  refine ⟨edit.fields.flatMap Field.encode, if_pos h.keys, fun mem src hsrc => ?_⟩
  have hfields : edit.fields.flatMap Field.encode =
      (edit.fields.map fun field => (field, field.encode)).flatMap Prod.snd := by
    rw [flatMap_map]
  have hmem : ∀ x ∈ edit.fields.map fun field => (field, field.encode), IsField x.1 x.2 := by
    intro x hx
    obtain ⟨field, hfield, rfl⟩ := mem_map.1 hx
    exact Field.isField_encode field (h.levels field hfield) (h.strings field hfield)
  have hfuel : (edit.fields.flatMap Field.encode).length < src.size + 1 := by
    rw [← hsrc, Span.length_bytes]
    exact Nat.lt_succ_self _
  rw [hfields] at hsrc hfuel
  rw [decodeFrom, decodeLoop_bytes, hsrc, decodeLoop_fields _ hmem hfuel, map_map,
    comp_def, map_id']
  exact congrArg (fun e => some (e, Status.ok)) edit.foldl_apply_fields

/-- The object with more compaction pointers in front. -/
def behindPointers (ps : List (ℕ × Bytes)) (edit : EditFields) : EditFields :=
  { edit with compact_pointers := ps ++ edit.compact_pointers }

theorem clear_eq (edit : EditFields) : edit.clear = new.behindPointers edit.compact_pointers := by
  simp [clear, behindPointers, new]

theorem apply_behindPointers (ps : List (ℕ × Bytes)) (edit : EditFields) (field : Field) :
    (edit.behindPointers ps).apply field = (edit.apply field).behindPointers ps := by
  cases field <;> simp [apply, behindPointers]

theorem decodeLoop_behindPointers {ι : Type*} (r : InputReader ι) (ps : List (ℕ × Bytes))
    (fuel : ℕ) (edit : EditFields) (input : ι) : decodeLoop r fuel (edit.behindPointers ps) input =
      (decodeLoop r fuel edit input).map (Prod.map (behindPointers ps) id) := by
  induction fuel generalizing edit input with
  | zero => rfl
  | succ fuel ih =>
    rw [decodeLoop, decodeLoop]
    cases r.getVarint32 input with
    | none => rfl
    | some v =>
      dsimp only
      cases decodeField r v.1 v.2 with
      | error msg => rfl
      | ok x =>
        dsimp only
        rw [apply_behindPointers, ih]

theorem decodeFrom_eq (mem : ℕ → UInt8) (edit : EditFields) (src : Span) :
    edit.decodeFrom mem src =
      (new.decodeFrom mem src).map (Prod.map (behindPointers edit.compact_pointers) id) := by
  rw [decodeFrom, decodeFrom, clear_eq, decodeLoop_behindPointers, Option.map_map, Option.map_map]
  rfl

theorem decodeFrom_congr (edit : EditFields) {mem mem' : ℕ → UInt8} {src src' : Span}
    (h : src'.bytes mem' = src.bytes mem) :
    edit.decodeFrom mem' src' = edit.decodeFrom mem src := by
  have heq := congrArg List.length h
  rw [Span.length_bytes, Span.length_bytes] at heq
  rw [decodeFrom, decodeFrom, decodeLoop_bytes, decodeLoop_bytes, h, heq]

theorem decodeFrom_sound (edit : EditFields) (mem : ℕ → UInt8) (src : Span) :
    ∃ edit' s, edit.decodeFrom mem src = some (edit', s) ∧
      (s = .ok → ∃ fs : List (Field × Bytes), (∀ x ∈ fs, IsField x.1 x.2) ∧
        src.bytes mem = fs.flatMap Prod.snd ∧
        edit' = (fs.map Prod.fst).foldl apply edit.clear) := by
  have hfuel : (src.bytes mem).length < src.size + 1 := by
    rw [Span.length_bytes]
    exact Nat.lt_succ_self _
  obtain ⟨edit', msg, hloop, hsound⟩ := decodeLoop_sound edit.clear hfuel
  rw [decodeFrom, decodeLoop_bytes, hloop]
  refine ⟨_, _, rfl, fun hs => hsound ?_⟩
  cases msg with
  | none => rfl
  | some msg => cases hs

end EditFields

/-- **The codec of version edits.**  An edit with levels below `kNumLevels`, keys that are not empty
and strings below 4 GiB reads back into a new object.  The decoder depends on no byte outside of its
slice; it always ends, and if the status is OK, then the slice consists of well-formed fields, which
have been applied in their order. -/
theorem versionEdit_codec :
    (∀ edit : EditFields, edit.Writable → ∃ bytes, edit.encodeTo = some bytes ∧
      ∀ mem (src : Span), src.bytes mem = bytes →
        EditFields.new.decodeFrom mem src = some (edit, .ok)) ∧
    ∀ (edit : EditFields) (mem : ℕ → UInt8) (src : Span),
      (∀ mem' (src' : Span), src'.bytes mem' = src.bytes mem →
        edit.decodeFrom mem' src' = edit.decodeFrom mem src) ∧
      ∃ edit' s, edit.decodeFrom mem src = some (edit', s) ∧
        (s = .ok → ∃ fs : List (Field × Bytes), (∀ x ∈ fs, IsField x.1 x.2) ∧
          src.bytes mem = fs.flatMap Prod.snd ∧
          edit' = (fs.map Prod.fst).foldl EditFields.apply edit.clear) :=
  ⟨fun _ h => EditFields.decodeFrom_encodeTo h, fun edit mem src =>
    ⟨fun _ _ h => edit.decodeFrom_congr h, edit.decodeFrom_sound mem src⟩⟩

theorem versionEdit_codec_moveFile :
    ∃ bytes, ({ EditFields.new with
        deleted_files := {toLex (0, 5)}, new_files := [(1, ⟨5, 100, [1], [2]⟩)] } :
          EditFields).encodeTo = some bytes ∧
      ∀ mem (src : Span), src.bytes mem = bytes → EditFields.new.decodeFrom mem src =
        some ({ EditFields.new with
          deleted_files := {toLex (0, 5)}, new_files := [(1, ⟨5, 100, [1], [2]⟩)] }, .ok) :=
  versionEdit_codec.1 _ ⟨by simp [EditFields.fields, EditFields.new, Field.levels, kNumLevels],
    by simp [EditFields.fields, EditFields.new, Field.keys],
    by simp [EditFields.fields, EditFields.new, Field.strings, Field.keys]⟩

/-- An edit with a comparator name of 4 GiB. -/
def longName : EditFields := { EditFields.new with comparator := some (List.replicate (2 ^ 32) 0) }

/-- **A name of 4 GiB does not read back**: the length is written as zero. -/
theorem longName_not_decoded :
    (∀ field ∈ longName.fields, (∀ level ∈ field.levels, level < kNumLevels) ∧
      ∀ key ∈ field.keys, key ≠ []) ∧
    ∃ bytes, longName.encodeTo = some bytes ∧ ∀ mem (src : Span), src.bytes mem = bytes →
      EditFields.new.decodeFrom mem src ≠ some (longName, .ok) := by
  have hname : ∀ name, ({ EditFields.new with comparator := some name } : EditFields).fields =
      [.comparator name] := by
    simp [EditFields.fields, EditFields.new]
  have hfields : longName.fields = [.comparator (List.replicate (2 ^ 32) 0)] := hname _
  have hnone : ∀ field ∈ longName.fields, field.levels = [] ∧ field.keys = [] := by
    intro field h
    rw [hfields, mem_singleton] at h
    exact h ▸ ⟨rfl, rfl⟩
  have hkeys : ∀ field ∈ longName.fields, ∀ key ∈ field.keys, key ≠ [] := by
    intro field h key hkey
    rw [(hnone field h).2] at hkey
    cases hkey
  refine ⟨fun field h => ⟨?_, hkeys field h⟩, _, if_pos hkeys, fun mem src hsrc heq => ?_⟩
  · rw [(hnone field h).1]
    exact fun level h => absurd h not_mem_nil
  · obtain ⟨tail, htail⟩ : ∃ tail, List.replicate (2 ^ 32) (0 : UInt8) = 0 :: tail :=
      ⟨List.replicate (2 ^ 32 - 1) 0,
        by rw [← replicate_succ, Nat.sub_add_cancel Nat.one_le_two_pow]⟩
    have hbytes : src.bytes mem = [1, 0] ++ 0 :: tail := by
      rw [hsrc, hfields, flatMap_singleton, Field.encode, Field.payload,
        putLengthPrefixedSlice, length_replicate, Nat.mod_self, htail]
      rfl
    obtain ⟨fuel, hfuel⟩ : ∃ fuel, src.size + 1 = fuel + 2 := by
      refine ⟨src.size - 1, ?_⟩
      have := Span.length_bytes mem src
      rw [hbytes, length_append, length_cons, length_cons] at this
      omega
    have hfield : IsField (.comparator []) [1, 0] :=
      Field.isField_encode (.comparator []) (fun _ h => absurd h not_mem_nil)
        (by simp [Field.strings])
    rw [EditFields.decodeFrom, decodeLoop_bytes, hbytes, hfuel, decodeLoop_field hfield] at heq
    cases heq

/-- **What decoding forgets.**  Two objects are the same after they have decoded the same slice,
with the same status, if and only if they had the same compaction pointers before. -/
theorem decodeFrom_forgets_iff (mem : ℕ → UInt8) (src : Span) (edit edit' : EditFields) :
    edit.decodeFrom mem src = edit'.decodeFrom mem src ↔
      edit.compact_pointers = edit'.compact_pointers := by
  obtain ⟨e, s, h, -⟩ := EditFields.new.decodeFrom_sound mem src
  rw [edit.decodeFrom_eq, edit'.decodeFrom_eq, h, Option.map_some, Option.map_some]
  refine ⟨fun heq => ?_, fun heq => by rw [heq]⟩
  have := congrArg (fun x => x.1.compact_pointers) (Option.some.inj heq)
  exact append_cancel_right this

/-- **An old compaction pointer stays**, even if nothing is decoded. -/
theorem decodeFrom_keeps_pointer : EditFields.new.decodeFrom (fun _ => 0) ⟨0, 0⟩ ≠
    { EditFields.new with compact_pointers := [(0, [1])] }.decodeFrom (fun _ => 0) ⟨0, 0⟩ := by
  intro h
  cases h

end Bourbon
