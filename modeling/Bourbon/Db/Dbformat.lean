import Mathlib.Data.Prod.Lex
import Bourbon.Util.Coding

/-!
# Internal keys

`db/dbformat.cc`: an internal key is a user key with a sequence number and a value type.  Internal
keys are ordered by increasing user key and, for one user key, from newer to older.  The order of
user keys, the user comparator, is a parameter: any linear order on `K`.

On disk an internal key is the user key followed by eight bytes.  `InternalKeyComparator.compare`
compares such byte strings, and `compare_encode` identifies it with the order of the keys.
-/

namespace Bourbon

/-- `kTypeDeletion` and `kTypeValue`. -/
inductive ValueType where
  | deletion
  | value
  deriving DecidableEq

/-- The byte of a type. -/
def ValueType.toNat : ValueType → ℕ
  | deletion => 0
  | value => 1

/-- `kTypeValue`, the largest type: a lookup key sorts before all entries with its sequence
number. -/
def kValueTypeForSeek : ValueType := .value

/-- Sequence numbers have 56 bits. -/
def kMaxSequenceNumber : ℕ := 2 ^ 56 - 1

/-- `(seq << 8) | t`. -/
def packSequenceAndType (seq : ℕ) (t : ValueType) : ℕ := seq * 256 + t.toNat

/-- A parsed internal key. -/
@[ext] structure InternalKey (K : Type*) where
  user_key : K
  sequence : ℕ
  type : ValueType
  deriving DecidableEq

theorem ValueType.toNat_le_one (t : ValueType) : t.toNat ≤ 1 := by cases t <;> decide

theorem ValueType.toNat_inj {s t : ValueType} (h : s.toNat = t.toNat) : s = t := by
  cases s <;> cases t <;> simp_all [ValueType.toNat]

namespace InternalKey

variable {K : Type*}

/-- The number that breaks ties between entries of one user key. -/
def num (k : InternalKey K) : ℕ := packSequenceAndType k.sequence k.type

variable {a b : InternalKey K}

theorem num_inj (h : a.num = b.num) :
    a.sequence = b.sequence ∧ a.type = b.type := by
  simp only [num, packSequenceAndType] at h
  have ha := a.type.toNat_le_one
  have hb := b.type.toNat_le_one
  exact ⟨by omega, ValueType.toNat_inj (by omega)⟩

variable [LinearOrder K]

/-- By user key, and from the newest entry to the oldest. -/
instance : LinearOrder (InternalKey K) :=
  LinearOrder.lift' (fun k => toLex (k.user_key, OrderDual.toDual k.num)) (by
    intro a b h
    have h' : (a.user_key, a.num) = (b.user_key, b.num) := h
    obtain ⟨hs, ht⟩ := num_inj (congrArg Prod.snd h')
    exact InternalKey.ext (congrArg Prod.fst h') hs ht)

theorem lt_iff :
    a < b ↔ a.user_key < b.user_key ∨ a.user_key = b.user_key ∧ b.num < a.num := by
  change toLex (a.user_key, OrderDual.toDual a.num) < toLex (b.user_key, OrderDual.toDual b.num) ↔ _
  rw [Prod.Lex.toLex_lt_toLex, OrderDual.toDual_lt_toDual]

theorem le_iff :
    a ≤ b ↔ a.user_key < b.user_key ∨ a.user_key = b.user_key ∧ b.num ≤ a.num := by
  change toLex (a.user_key, OrderDual.toDual a.num) ≤ toLex (b.user_key, OrderDual.toDual b.num) ↔ _
  rw [Prod.Lex.toLex_le_toLex, OrderDual.toDual_le_toDual]

theorem user_key_le (h : a ≤ b) : a.user_key ≤ b.user_key := by
  rcases le_iff.1 h with h | h
  · exact h.le
  · exact h.1.le

theorem sequence_le_of_le (h : a ≤ b) (huser : a.user_key = b.user_key) :
    b.sequence ≤ a.sequence := by
  rcases le_iff.1 h with hlt | ⟨-, hnum⟩
  · exact absurd huser hlt.ne
  · have ha := a.type.toNat_le_one
    simp only [num, packSequenceAndType] at hnum
    omega

theorem le_of_deletion (huser : a.user_key = b.user_key)
    (htype : b.type = .deletion) (hle : b.sequence ≤ a.sequence) : a ≤ b := by
  refine le_iff.2 (Or.inr ⟨huser, ?_⟩)
  simp only [num, packSequenceAndType, htype, ValueType.toNat]
  omega

theorem lt_of_user_key_lt (h : a.user_key < b.user_key) : a < b :=
  lt_iff.2 (Or.inl h)

end InternalKey

/-- The internal key of `LookupKey(user_key, sequence)`. -/
def lookupKey {K : Type*} (user_key : K) (sequence : ℕ) : InternalKey K :=
  ⟨user_key, sequence, kValueTypeForSeek⟩

/-- **A lookup key sorts just before the entries visible to it.** -/
theorem lookupKey_le_iff {K : Type*} [LinearOrder K] {u : K} {s : ℕ} {k : InternalKey K} :
    lookupKey u s ≤ k ↔ u < k.user_key ∨ u = k.user_key ∧ k.sequence ≤ s := by
  have := k.type.toNat_le_one
  have hnum : k.num ≤ (lookupKey u s).num ↔ k.sequence ≤ s := by
    change k.sequence * 256 + k.type.toNat ≤ s * 256 + 1 ↔ _
    omega
  rw [InternalKey.le_iff, hnum]
  rfl

/-! ### Encoded keys -/

/-- `AppendInternalKey` to an empty string. -/
def InternalKey.encode (key : InternalKey Bytes) : Bytes :=
  key.user_key ++ encodeFixed64 (packSequenceAndType key.sequence key.type)

/-- `ExtractUserKey`. -/
def extractUserKey (internal_key : Bytes) : Bytes := internal_key.take (internal_key.length - 8)

/-- The last eight bytes as a number. -/
def extractNum (internal_key : Bytes) : ℕ :=
  decodeFixed64 (internal_key.drop (internal_key.length - 8))

/-- `ParseInternalKey`; `none` is the answer `false`. -/
def parseInternalKey (internal_key : Bytes) : Option (InternalKey Bytes) :=
  if internal_key.length < 8 then none
  else
    let num := extractNum internal_key
    match num % 256 with
    | 0 => some ⟨extractUserKey internal_key, num / 256, .deletion⟩
    | 1 => some ⟨extractUserKey internal_key, num / 256, .value⟩
    | _ => none

/-- `InternalKeyComparator::Compare` over the bytewise user comparator. -/
def InternalKeyComparator.compare (akey bkey : Bytes) : Ordering :=
  match Slice.compare (extractUserKey akey) (extractUserKey bkey) with
  | .eq =>
    let anum := extractNum akey
    let bnum := extractNum bkey
    if anum > bnum then .lt else if anum < bnum then .gt else .eq
  | r => r

namespace InternalKey

variable {k : InternalKey Bytes}

@[simp] theorem length_encode (k : InternalKey Bytes) :
    k.encode.length = k.user_key.length + 8 := by
  rw [encode, List.length_append, encodeFixed64, length_encodeFixed]

@[simp] theorem extractUserKey_encode (k : InternalKey Bytes) :
    extractUserKey k.encode = k.user_key := by
  rw [extractUserKey, length_encode, Nat.add_sub_cancel, encode, List.take_left']
  rfl

theorem num_lt (h : k.sequence ≤ kMaxSequenceNumber) : k.num < 256 ^ 8 := by
  have := k.type.toNat_le_one
  simp only [num, packSequenceAndType, kMaxSequenceNumber] at h ⊢
  omega

theorem extractNum_encode (h : k.sequence ≤ kMaxSequenceNumber) : extractNum k.encode = k.num := by
  have := decodeFixed_encodeFixed (num_lt h) []
  rw [List.append_nil] at this
  rw [extractNum, length_encode, Nat.add_sub_cancel, encode, List.drop_left' rfl]
  exact this

theorem parseInternalKey_encode (h : k.sequence ≤ kMaxSequenceNumber) :
    parseInternalKey k.encode = some k := by
  rw [parseInternalKey, if_neg (by rw [length_encode]; omega), extractNum_encode h,
    extractUserKey_encode]
  obtain ⟨u, s, t⟩ := k
  cases t
  · simp only [num, packSequenceAndType, ValueType.toNat, Nat.add_zero, Nat.mul_mod_left,
      Nat.mul_div_cancel s (show 0 < 256 by decide)]
  · have h1 : (s * 256 + 1) % 256 = 1 := by omega
    have h2 : (s * 256 + 1) / 256 = s := by omega
    simp only [num, packSequenceAndType, ValueType.toNat, h1, h2]

/-- **Encoded keys compare as the keys do.** -/
theorem compare_encode {a b : InternalKey Bytes} (ha : a.sequence ≤ kMaxSequenceNumber)
    (hb : b.sequence ≤ kMaxSequenceNumber) :
    InternalKeyComparator.compare a.encode b.encode = cmp a b := by
  rw [InternalKeyComparator.compare, extractUserKey_encode, extractUserKey_encode,
    Slice.compare_eq, extractNum_encode ha, extractNum_encode hb]
  simp only [cmp, cmpUsing, lt_iff]
  rcases lt_trichotomy a.user_key b.user_key with h | h | h
  · simp [h]
  · simp [h]
  · simp [h, h.ne', h.not_gt]

end InternalKey

end Bourbon
