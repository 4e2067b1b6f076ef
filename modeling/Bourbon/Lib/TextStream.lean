import Mathlib.Data.List.Basic

/-!
# Formatted input from a text stream

The input side of C++ `iostream`: a formatted input function skips white space and extracts a word
or a number.  A stream that has failed, or that has reached the end of the text, fails in every
later extraction.  How a number is extracted is a parameter (`Extractor`).

* `TextStream.getString_cases` : a word is extracted, and the text gets shorter, or the stream has
  failed and the word is empty;
* `TextStream.getNumber_of_fail`, `TextStream.getString_of_fail` : a failed stream stays failed.
-/

/-- Extraction of a number from a text that starts with no white space: what is stored, whether the
extraction succeeds, and the text behind it. -/
structure Extractor (α : Type*) where
  get : List UInt8 → α × Bool × List UInt8
  suffix : ∀ text, (get text).2.2 <:+ text

/-- A text stream: the text behind the position, and the bits `eofbit` and `failbit`. -/
structure TextStream where
  rest : List UInt8
  eof : Bool
  fail : Bool
  deriving DecidableEq

namespace TextStream

variable {α : Type*} {s : TextStream}

/-- White space of the C locale. -/
def isSpace (b : UInt8) : Bool := b == 32 || (9 ≤ b && b ≤ 13)

/-- A stream at the beginning of a text. -/
def ofBytes (text : List UInt8) : TextStream := ⟨text, false, false⟩

/-- What every formatted input function does first. -/
def sentry (s : TextStream) : TextStream :=
  if s.eof || s.fail then { s with fail := true }
  else
    match s.rest.dropWhile isSpace with
    | [] => ⟨[], true, true⟩
    | b :: rest => ⟨b :: rest, false, false⟩

/-- `stream >> word` into an empty string. -/
def getString (s : TextStream) : TextStream × List UInt8 :=
  let s := s.sentry
  if s.fail then (s, [])
  else
    let rest := s.rest.dropWhile fun b => !isSpace b
    (⟨rest, rest.isEmpty, false⟩, s.rest.takeWhile fun b => !isSpace b)

/-- `stream >> number`; `old` is the value before. -/
def getNumber (x : Extractor α) (s : TextStream) (old : α) : TextStream × α :=
  let s := s.sentry
  if s.fail then (s, old)
  else
    let (v, ok, rest) := x.get s.rest
    (⟨rest, rest.isEmpty, !ok⟩, v)

theorem sentry_of_fail (h : s.fail = true) : s.sentry.fail = true := by
  rw [sentry, h, Bool.or_true, if_pos rfl]

theorem getString_of_fail (h : s.fail = true) :
    s.getString.1.fail = true ∧ s.getString.2 = [] := by
  rw [getString, if_pos (sentry_of_fail h)]
  exact ⟨sentry_of_fail h, rfl⟩

theorem getNumber_of_fail {x : Extractor α} {old : α} (h : s.fail = true) :
    (s.getNumber x old).1.fail = true := by
  rw [getNumber, if_pos (sentry_of_fail h)]
  exact sentry_of_fail h

theorem length_sentry_le (s : TextStream) : s.sentry.rest.length ≤ s.rest.length := by
  have hdrop := (List.dropWhile_suffix (p := isSpace) (l := s.rest)).length_le
  rw [sentry]
  split_ifs
  · exact Nat.le_refl _
  · split
    · exact Nat.zero_le _
    · next hrest => rwa [hrest] at hdrop

/-- Behind the sentry of a stream that has not failed there is a character that is not white
space. -/
theorem sentry_cases (s : TextStream) :
    s.sentry.fail = true ∨ ∃ b rest, s.sentry.rest = b :: rest ∧ isSpace b = false := by
  rw [sentry]
  split_ifs
  · exact .inl rfl
  · split
    · exact .inl rfl
    · next b rest hrest =>
      refine .inr ⟨b, rest, rfl, ?_⟩
      have hne : s.rest.dropWhile isSpace ≠ [] := by rw [hrest]; exact List.cons_ne_nil _ _
      have hhead := List.head_dropWhile_not isSpace hne
      simpa only [hrest, List.head_cons] using hhead

/-- **A word is extracted**, and less text is left, or the stream has failed. -/
theorem getString_cases (s : TextStream) :
    s.getString.1.fail = true ∧ s.getString.2 = [] ∨
      s.getString.1.fail = false ∧ s.getString.1.rest.length < s.rest.length := by
  rcases sentry_cases s with hfail | ⟨b, rest, hrest, hb⟩
  · rw [getString, if_pos hfail]
    exact .inl ⟨hfail, rfl⟩
  · rw [getString]
    split_ifs with hfail
    · exact .inl ⟨hfail, rfl⟩
    · refine .inr ⟨rfl, ?_⟩
      have hlen := length_sentry_le s
      have hdrop := (List.dropWhile_suffix (p := fun b => !isSpace b) (l := rest)).length_le
      simp only [hrest, List.dropWhile_cons, hb, Bool.not_false, if_true, List.length_cons]
        at hlen ⊢
      omega

theorem length_getNumber_le (x : Extractor α) (s : TextStream) (old : α) :
    (s.getNumber x old).1.rest.length ≤ s.rest.length := by
  have hlen := length_sentry_le s
  rw [getNumber]
  split_ifs
  · exact hlen
  · exact Nat.le_trans (x.suffix s.sentry.rest).length_le hlen

end TextStream
