import Mathlib.Data.List.Basic

/-!
# Readers of a string

A reader takes a value from the front of a string and returns what is left.

* `Reads` : the strings that are read as a value, whatever follows them;
* `Local` : the reader takes something, and nothing behind it matters.
-/

namespace Reader

variable {α β : Type*} {r : List β → Option (α × List β)} {p rest : List β} {v : α}

/-- The string is read as `v`, whatever follows it. -/
def Reads (r : List β → Option (α × List β)) (v : α) (bs : List β) : Prop :=
  ∀ rest, r (bs ++ rest) = some (v, rest)

/-- What the reader takes is not empty and is read the same before any string. -/
def Local (r : List β → Option (α × List β)) : Prop :=
  ∀ {p v rest}, r p = some (v, rest) → ∃ bs, bs ≠ [] ∧ p = bs ++ rest ∧ Reads r v bs

theorem Local.append (h : Local r) (hp : r p = some (v, rest)) (q : List β) :
    r (p ++ q) = some (v, rest ++ q) := by
  obtain ⟨bs, -, rfl, hbs⟩ := h hp
  rw [List.append_assoc, hbs]

theorem Local.length_lt (h : Local r) (hp : r p = some (v, rest)) : rest.length < p.length := by
  obtain ⟨bs, hne, rfl, -⟩ := h hp
  have := List.length_pos_iff.2 hne
  rw [List.length_append]
  omega

theorem Local.suffix (h : Local r) (hp : r p = some (v, rest)) : rest <:+ p := by
  obtain ⟨bs, -, rfl, -⟩ := h hp
  exact List.suffix_append bs rest

theorem Local.eq_none (h : Local r) {bs cut : List β} (hbs : Reads r v bs) (hcut : cut <+: bs)
    (hne : cut ≠ bs) : r cut = none := by
  obtain ⟨q, rfl⟩ := hcut
  by_contra hsome
  obtain ⟨⟨v', rest⟩, hread⟩ := Option.ne_none_iff_exists'.1 hsome
  have hwhole := hbs []
  rw [List.append_nil, h.append hread] at hwhole
  obtain ⟨-, hq⟩ := List.append_eq_nil_iff.1 (Prod.mk.inj (Option.some.inj hwhole)).2
  exact hne (by rw [hq, List.append_nil])

end Reader
