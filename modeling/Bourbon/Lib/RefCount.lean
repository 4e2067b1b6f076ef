import Mathlib.Data.List.Count
import Mathlib.Data.List.Nodup

/-!
# Reference counts

Objects in a list, each with the number of the pointers to it.  Objects do not change, so that a
pointer carries what it points to.  With its last pointer an object leaves the list.

* `Counted` : the counts are right for a list of pointers;
* `Counted.ref`, `Counted.unref`, `Counted.append` : the operations keep them right.
-/

namespace RefCount

open List

/-- An object with its count. -/
structure Cell (α : Type*) where
  id : ℕ
  refs : ℕ
  value : α

/-- A pointer to an object. -/
structure Pointer (α : Type*) where
  id : ℕ
  value : α

variable {α : Type*}

/-- One more pointer to an object. -/
def ref (cells : List (Cell α)) (id : ℕ) : List (Cell α) :=
  cells.map fun c => if c.id = id then { c with refs := c.refs + 1 } else c

/-- One pointer less. -/
def unref (cells : List (Cell α)) (id : ℕ) : List (Cell α) :=
  (cells.map fun c => if c.id = id then { c with refs := c.refs - 1 } else c).filter
    fun c => c.id ≠ id ∨ c.refs ≠ 0

/-- Every object knows how many pointers there are to it, and every pointer has its object. -/
structure Counted (cells : List (Cell α)) (pointers : List (Pointer α)) : Prop where
  distinct : (cells.map Cell.id).Nodup
  count : ∀ c ∈ cells, c.refs = pointers.countP fun p => p.id = c.id
  held : ∀ p ∈ pointers, ∃ c ∈ cells, c.id = p.id ∧ c.value = p.value

theorem map_id_refs (cells : List (Cell α)) (id : ℕ) (change : ℕ → ℕ) :
    (cells.map fun c => if c.id = id then { c with refs := change c.refs } else c).map Cell.id =
      cells.map Cell.id := by
  rw [map_map]
  refine map_congr_left fun c _ => ?_
  rw [Function.comp_apply]
  split_ifs <;> rfl

variable {cells : List (Cell α)} {id : ℕ} {c : Cell α}

theorem mem_ref (hc : c ∈ ref cells id) :
    ∃ c' ∈ cells, c.id = c'.id ∧ c.value = c'.value := by
  obtain ⟨c', hc', rfl⟩ := mem_map.1 hc
  refine ⟨c', hc', ?_⟩
  split_ifs <;> exact ⟨rfl, rfl⟩

theorem mem_unref (hc : c ∈ unref cells id) :
    ∃ c' ∈ cells, c.id = c'.id ∧ c.value = c'.value := by
  obtain ⟨c', hc', rfl⟩ := mem_map.1 (mem_of_mem_filter hc)
  refine ⟨c', hc', ?_⟩
  split_ifs <;> exact ⟨rfl, rfl⟩

variable {n : ℕ}

theorem id_lt_ref (h : ∀ c ∈ cells, c.id < n) (id : ℕ) :
    ∀ c ∈ ref cells id, c.id < n := fun _ hc => by
  obtain ⟨c', hc', hid, -⟩ := mem_ref hc
  exact hid ▸ h c' hc'

theorem id_lt_unref (h : ∀ c ∈ cells, c.id < n) (id : ℕ) :
    ∀ c ∈ unref cells id, c.id < n := fun _ hc => by
  obtain ⟨c', hc', hid, -⟩ := mem_unref hc
  exact hid ▸ h c' hc'

namespace Counted

variable {cells : List (Cell α)} {pointers : List (Pointer α)} {p : Pointer α}

theorem perm (h : Counted cells pointers) {pointers' : List (Pointer α)}
    (hp : pointers.Perm pointers') : Counted cells pointers' :=
  ⟨h.distinct, fun c hc => (h.count c hc).trans (hp.countP_eq _),
    fun p hp' => h.held p (hp.mem_iff.2 hp')⟩

/-- **A copy of a pointer.** -/
theorem ref (h : Counted cells pointers) (hp : p ∈ pointers) :
    Counted (ref cells p.id) (p :: pointers) := by
  have hheld : ∀ q ∈ pointers, ∃ c ∈ RefCount.ref cells p.id, c.id = q.id ∧ c.value = q.value := by
    intro q hq
    obtain ⟨c, hc, hid, hvalue⟩ := h.held q hq
    refine ⟨_, mem_map.2 ⟨c, hc, rfl⟩, ?_⟩
    split_ifs <;> exact ⟨hid, hvalue⟩
  refine ⟨?_, fun c hc => ?_, fun q hq => ?_⟩
  · rw [RefCount.ref, map_id_refs cells p.id (· + 1)]
    exact h.distinct
  · obtain ⟨c', hc', rfl⟩ := mem_map.1 hc
    have hcount := h.count c' hc'
    rw [countP_cons]
    by_cases hid : c'.id = p.id
    · simp only [decide_true, hid, if_true] at hcount ⊢
      rw [hcount]
    · simp only [if_neg hid, decide_eq_true_eq, if_neg (Ne.symm hid)]
      exact hcount
  · rcases mem_cons.1 hq with rfl | hq
    · exact hheld q hp
    · exact hheld q hq

/-- **A pointer is given up**: objects with other pointers stay. -/
theorem unref (h : Counted cells (p :: pointers)) : Counted (unref cells p.id) pointers := by
  have hsame : ∀ c ∈ cells, c.id = p.id → c.refs - 1 = pointers.countP fun q => q.id = c.id := by
    intro c hc hid
    have hcount := h.count c hc
    rw [countP_cons] at hcount
    simp only [hid, decide_true, if_true] at hcount ⊢
    omega
  refine ⟨?_, fun c hc => ?_, fun q hq => ?_⟩
  · have hsub := (filter_sublist (p := fun c : Cell α => decide (c.id ≠ p.id ∨ c.refs ≠ 0))
      (l := cells.map fun c => if c.id = p.id then { c with refs := c.refs - 1 } else c)).map
      Cell.id
    rw [map_id_refs cells p.id (· - 1)] at hsub
    exact h.distinct.sublist hsub
  · obtain ⟨c', hc', rfl⟩ := mem_map.1 (mem_of_mem_filter hc)
    by_cases hid : c'.id = p.id
    · rw [if_pos hid]
      exact hsame c' hc' hid
    · rw [if_neg hid]
      have hcount := h.count c' hc'
      rw [countP_cons] at hcount
      simpa only [decide_eq_true_eq, if_neg (Ne.symm hid), Nat.add_zero] using hcount
  · obtain ⟨c, hc, hid, hvalue⟩ := h.held q (mem_cons_of_mem _ hq)
    by_cases hp : c.id = p.id
    · -- the object has another pointer
      have hpos : 0 < pointers.countP fun q => q.id = c.id :=
        countP_pos_iff.2 ⟨q, hq, decide_eq_true hid.symm⟩
      rw [← hsame c hc hp] at hpos
      refine ⟨{ c with refs := c.refs - 1 }, mem_filter.2 ⟨mem_map.2 ⟨c, hc, if_pos hp⟩,
        decide_eq_true (Or.inr (Nat.ne_of_gt hpos))⟩, hid, hvalue⟩
    · exact ⟨c, mem_filter.2 ⟨mem_map.2 ⟨c, hc, if_neg hp⟩, decide_eq_true (Or.inl hp)⟩,
        hid, hvalue⟩

/-- **A new object with its first pointer.** -/
theorem append (h : Counted cells pointers) {id : ℕ} (hid : ∀ c ∈ cells, c.id < id) (value : α) :
    Counted (cells ++ [⟨id, 1, value⟩]) (⟨id, value⟩ :: pointers) := by
  refine ⟨?_, fun c hc => ?_, fun q hq => ?_⟩
  · rw [map_append, map_singleton, nodup_append]
    refine ⟨h.distinct, nodup_singleton _, fun a ha b hb => ?_⟩
    obtain ⟨c, hc, rfl⟩ := mem_map.1 ha
    rw [mem_singleton.1 hb]
    exact Nat.ne_of_lt (hid c hc)
  · rw [countP_cons]
    rcases mem_append.1 hc with hc | hc
    · have hne : ¬ id = c.id := Nat.ne_of_gt (hid c hc)
      simp only [decide_eq_true_eq, if_neg hne, Nat.add_zero]
      exact h.count c hc
    · rw [mem_singleton.1 hc]
      have hnone : (pointers.countP fun q => q.id = id) = 0 := by
        refine countP_eq_zero.2 fun q hq heq => ?_
        obtain ⟨c, hc, hcid, -⟩ := h.held q hq
        have := hid c hc
        have := of_decide_eq_true heq
        omega
      simp only [hnone, decide_true, if_true]
  · rcases mem_cons.1 hq with rfl | hq
    · exact ⟨_, mem_append_right _ (mem_singleton_self _), rfl, rfl⟩
    · obtain ⟨c, hc, hc'⟩ := h.held q hq
      exact ⟨c, mem_append_left _ hc, hc'⟩

end Counted

end RefCount
