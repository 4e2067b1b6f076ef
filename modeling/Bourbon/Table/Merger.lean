import Mathlib.Data.List.GetD
import Bourbon.Lib.SortedIterator

/-!
# The merging iterator

`MergingIterator` stands at the smallest of the entries at which its children stand, or at the
largest one when it moves backwards.  When the direction changes, the children other than the
current one are moved to the other side of the current key.

* `MergingIterator.Placed` : where the children stand;
* `iterates_merging` : the merging iterator iterates the entries of all children;
* `merging_eq_cursor` : so it is a cursor over the sorted list of all entries.
-/

namespace Bourbon

open List Option

open SortedIterator

/-- The direction in which an iterator is moving. -/
inductive Direction where
  | kForward
  | kReverse
  deriving DecidableEq

/-- `MergingIterator`; `current` is a child. -/
structure MergingIterator (σ : Type*) where
  children : List σ
  current : Option ℕ
  direction : Direction

namespace MergingIterator

variable {σ α ι : Type*} [LinearOrder ι]

/-- The loop of `FindSmallest` and `FindLargest` over the valid children. -/
def bestChild (better : α → α → Bool) : Option (ℕ × α) → List (ℕ × α) → Option (ℕ × α)
  | best, [] => best
  | none, child :: children => bestChild better (some child) children
  | some best, child :: children =>
    bestChild better (some (if better child.2 best.2 then child else best)) children

/-- The children that are valid. -/
def validChildren (it : SortedIterator σ α ι) (children : List σ) : List (ℕ × α) :=
  children.zipIdx.filterMap fun p => (it.entry p.1).map fun a => (p.2, a)

/-- `FindSmallest`. -/
def findSmallest (it : SortedIterator σ α ι) (key : α → ι) (children : List σ) : Option ℕ :=
  (bestChild (fun a b => decide (key a < key b)) none (validChildren it children)).map Prod.fst

/-- `FindLargest`, from the last child to the first. -/
def findLargest (it : SortedIterator σ α ι) (key : α → ι) (children : List σ) : Option ℕ :=
  (bestChild (fun a b => decide (key b < key a)) none (validChildren it children).reverse).map
    Prod.fst

/-- A loop that moves the children, from the child with number `i` on. -/
def moveChildren (move : ℕ → σ → Option σ) : ℕ → List σ → Option (List σ)
  | _, [] => some []
  | i, child :: children =>
    (move i child).bind fun child' =>
      (moveChildren move (i + 1) children).map fun children' => child' :: children'

/-- The entry of the current child. -/
def entry (it : SortedIterator σ α ι) (m : MergingIterator σ) : Option α :=
  m.current.bind fun i => (m.children[i]?).bind it.entry

/-- `FindSmallest` at the end of a move. -/
def moveForward (it : SortedIterator σ α ι) (key : α → ι) (children : List σ) :
    MergingIterator σ :=
  ⟨children, findSmallest it key children, .kForward⟩

/-- `FindLargest` at the end of a move. -/
def moveBackward (it : SortedIterator σ α ι) (key : α → ι) (children : List σ) :
    MergingIterator σ :=
  ⟨children, findLargest it key children, .kReverse⟩

/-- Moves a child behind the current key. -/
def seekAfter (it : SortedIterator σ α ι) (key : α → ι) (a : α) (child : σ) : Option σ :=
  (it.seek (key a) child).bind fun child =>
    match it.entry child with
    | some b => if key a = key b then it.next child else some child
    | none => some child

/-- Moves a child before the current key. -/
def seekBefore (it : SortedIterator σ α ι) (key : α → ι) (a : α) (child : σ) : Option σ :=
  (it.seek (key a) child).bind fun child =>
    match it.entry child with
    | some _ => it.prev child
    | none => it.seekToLast child

/-- `Next` and `Prev`: turn round, if necessary, and move the current child. -/
def step (it : SortedIterator σ α ι) (direction : Direction) (turn : α → σ → Option σ)
    (move : σ → Option σ) (m : MergingIterator σ) : Option (List σ) :=
  match m.current, entry it m with
  | some i, some a =>
    (if m.direction = direction then some m.children
      else moveChildren (fun j child => if j = i then some child else turn a child) 0
        m.children).bind fun children =>
      ((children[i]?).bind move).map fun child => children.set i child
  | _, _ => none

/-- The operations of `MergingIterator`. -/
def iterator (it : SortedIterator σ α ι) (key : α → ι) :
    SortedIterator (MergingIterator σ) α ι where
  entry := entry it
  seekToFirst m := (moveChildren (fun _ => it.seekToFirst) 0 m.children).map (moveForward it key)
  seekToLast m := (moveChildren (fun _ => it.seekToLast) 0 m.children).map (moveBackward it key)
  seek target m :=
    (moveChildren (fun _ => it.seek target) 0 m.children).map (moveForward it key)
  next m := (step it .kForward (seekAfter it key) it.next m).map (moveForward it key)
  prev m := (step it .kReverse (seekBefore it key) it.prev m).map (moveBackward it key)

/-! ### The current child -/

theorem bestChild_spec (key : α → ι) (l : List (ℕ × α)) (best : Option (ℕ × α)) :
    match bestChild (fun a b => decide (key a < key b)) best l with
    | none => best = none ∧ l = []
    | some c => (c ∈ l ∨ best = some c) ∧ (∀ d ∈ l, key c.2 ≤ key d.2) ∧
        ∀ d, best = some d → key c.2 ≤ key d.2 := by
  induction l generalizing best with
  | nil => cases best <;> simp [bestChild]
  | cons child children ih =>
    cases best with
    | none =>
      have h := ih (some child)
      rw [bestChild]
      cases hbest : bestChild (fun a b => decide (key a < key b)) (some child) children with
      | none =>
        rw [hbest] at h
        cases h.1
      | some c =>
        rw [hbest] at h
        obtain ⟨hmem, hle, hchild⟩ := h
        refine ⟨Or.inl ?_, forall_mem_cons.2 ⟨hchild child rfl, hle⟩, fun d hd => (by cases hd)⟩
        rcases hmem with hmem | hmem
        · exact mem_cons_of_mem _ hmem
        · exact some.inj hmem ▸ mem_cons_self
    | some best =>
      have h := ih (some (if decide (key child.2 < key best.2) = true then child else best))
      rw [bestChild]
      cases hbest : bestChild (fun a b => decide (key a < key b))
          (some (if decide (key child.2 < key best.2) = true then child else best)) children with
      | none =>
        rw [hbest] at h
        cases h.1
      | some c =>
        rw [hbest] at h
        obtain ⟨hmem, hle, hchild⟩ := h
        have hc := hchild _ rfl
        by_cases hlt : key child.2 < key best.2
        · rw [if_pos (decide_eq_true hlt)] at hmem hc
          refine ⟨Or.inl ?_, forall_mem_cons.2 ⟨hc, hle⟩, fun d hd => ?_⟩
          · rcases hmem with hmem | hmem
            · exact mem_cons_of_mem _ hmem
            · exact some.inj hmem ▸ mem_cons_self
          · exact some.inj hd ▸ hc.trans hlt.le
        · rw [if_neg (fun h => hlt (of_decide_eq_true h))] at hmem hc
          refine ⟨?_, forall_mem_cons.2 ⟨hc.trans (not_lt.1 hlt), hle⟩, fun d hd => ?_⟩
          · rcases hmem with hmem | hmem
            · exact Or.inl (mem_cons_of_mem _ hmem)
            · exact Or.inr hmem
          · exact some.inj hd ▸ hc

omit [LinearOrder ι] in
theorem mem_validChildren {it : SortedIterator σ α ι} {children : List σ} {i : ℕ} {a : α} :
    (i, a) ∈ validChildren it children ↔ ∃ c, children[i]? = some c ∧ it.entry c = some a := by
  rw [validChildren, mem_filterMap]
  constructor
  · rintro ⟨⟨c, j⟩, hmem, heq⟩
    obtain ⟨a', ha', heq⟩ := map_eq_some_iff.1 heq
    obtain ⟨rfl, rfl⟩ := Prod.mk.inj heq
    exact ⟨c, mem_zipIdx_iff_getElem?.1 hmem, ha'⟩
  · rintro ⟨c, hc, ha⟩
    exact ⟨(c, i), mem_zipIdx_iff_getElem?.2 hc, by rw [ha]; rfl⟩

/-- The entries of `n` children. -/
def union (S : ℕ → Set α) (n : ℕ) : Set α := {a | ∃ i < n, a ∈ S i}

omit [LinearOrder ι] in
theorem union_getD (ls : List (List α)) :
    union (fun i => {a | a ∈ ls.getD i []}) ls.length = {a | ∃ l ∈ ls, a ∈ l} := by
  ext a
  constructor
  · rintro ⟨i, hi, ha⟩
    rw [Set.mem_ofPred_eq, getD_eq_getElem _ _ hi] at ha
    exact ⟨_, getElem_mem hi, ha⟩
  · rintro ⟨l, hl, ha⟩
    obtain ⟨i, hi, rfl⟩ := mem_iff_getElem.1 hl
    refine ⟨i, hi, ?_⟩
    rwa [Set.mem_ofPred_eq, getD_eq_getElem _ _ hi]

/-- Keys of different children are different. -/
def Apart (key : α → ι) (S : ℕ → Set α) : Prop :=
  ∀ i j, i ≠ j → ∀ a ∈ S i, ∀ b ∈ S j, key a ≠ key b

/-- The smallest of the first entries is the first entry of all.  Every other child stands behind
it. -/
theorem isFirst_bestChild (key : α → ι) {entry : σ → Option α} {S : ℕ → Set α} {children : List σ}
    {l : List (ℕ × α)}
    (hl : ∀ i a, (i, a) ∈ l ↔ ∃ c, children[i]? = some c ∧ entry c = some a) {p : ι → Prop}
    (hp : ∀ i j, i ≤ j → p i → p j) (hapart : Apart key S)
    (h : ∀ i c, children[i]? = some c → IsFirst key (S i) p (entry c)) :
    IsFirst key (union S children.length) p
        ((bestChild (fun a b => decide (key a < key b)) none l).map Prod.snd) ∧
      ∀ i a, bestChild (fun a b => decide (key a < key b)) none l = some (i, a) →
        (∃ c, children[i]? = some c ∧ entry c = some a) ∧
        ∀ j c, j ≠ i → children[j]? = some c →
          IsFirst key (S j) (fun k => key a < k) (entry c) := by
  have hbest := bestChild_spec key l none
  cases hb : bestChild (fun a b => decide (key a < key b)) none l with
  | none =>
    rw [hb] at hbest
    refine ⟨?_, fun i a hnone => (by cases hnone)⟩
    rintro b ⟨i, hi, hbi⟩ hpb
    have hc := List.getElem?_eq_getElem hi
    have hfirst := h i _ hc
    cases ha : entry children[i] with
    | none =>
      rw [ha] at hfirst
      exact hfirst b hbi hpb
    | some a =>
      have hmem := (hl i a).2 ⟨_, hc, ha⟩
      rw [hbest.2] at hmem
      cases hmem
  | some best =>
    obtain ⟨i, a⟩ := best
    rw [hb] at hbest
    obtain ⟨hmem, hle, -⟩ := hbest
    obtain ⟨c, hc, ha⟩ := (hl i a).1 (hmem.resolve_right (by simp))
    obtain ⟨haS, hpa, -⟩ : IsFirst key (S i) p (some a) := ha ▸ h i c hc
    have hfirst : ∀ j d b, children[j]? = some d → b ∈ S j → p (key b) → key a ≤ key b := by
      intro j d b hd hbj hpb
      have hj := h j d hd
      cases hentry : entry d with
      | none =>
        rw [hentry] at hj
        exact absurd hpb (hj b hbj)
      | some x =>
        rw [hentry] at hj
        exact (hle (j, x) ((hl j x).2 ⟨d, hd, hentry⟩)).trans (hj.2.2 b hbj hpb)
    refine ⟨⟨⟨i, (List.getElem?_eq_some_iff.1 hc).1, haS⟩, hpa, ?_⟩, ?_⟩
    · rintro b ⟨j, hj, hbj⟩ hpb
      exact hfirst j _ b (List.getElem?_eq_getElem hj) hbj hpb
    · intro i' a' heq
      obtain ⟨rfl, rfl⟩ := Prod.mk.inj (some.inj heq)
      refine ⟨⟨c, hc, ha⟩, fun j d hj hd => (h j d hd).congr fun b hb => ?_⟩
      refine ⟨fun hpb => ?_, fun hlt => hp _ _ hlt.le hpa⟩
      exact (hfirst j d b hd hb hpb).lt_of_ne (hapart i j hj.symm a haS b hb)

/-! ### The invariant -/

variable {it : SortedIterator σ α ι} {key : α → ι} {S : ℕ → Set α} {children : List σ}
  {inv : ℕ → σ → Prop}

/-- The children that are not current stand behind or before the current key. -/
structure Placed (it : SortedIterator σ α ι) (key : α → ι) (S : ℕ → Set α)
    (m : MergingIterator σ) (i : ℕ) (a : α) : Prop where
  current : ∃ c, m.children[i]? = some c ∧ it.entry c = some a
  forward : m.direction = .kForward → ∀ j c, j ≠ i → m.children[j]? = some c →
    IsFirst key (S j) (fun k => key a < k) (it.entry c)
  reverse : m.direction = .kReverse → ∀ j c, j ≠ i → m.children[j]? = some c →
    IsLast key (S j) (fun k => k < key a) (it.entry c)

/-- The invariant of `n` children. -/
structure Inv (it : SortedIterator σ α ι) (key : α → ι) (S : ℕ → Set α) (inv : ℕ → σ → Prop) (n : ℕ)
    (m : MergingIterator σ) : Prop where
  length : m.children.length = n
  child : ∀ i c, m.children[i]? = some c → inv i c
  placed : ∀ i, m.current = some i → ∃ a, Placed it key S m i a

theorem moveForward_spec {p : ι → Prop} (hp : ∀ i j, i ≤ j → p i → p j) (hapart : Apart key S)
    (hinv : ∀ i c, children[i]? = some c → inv i c)
    (h : ∀ i c, children[i]? = some c → IsFirst key (S i) p (it.entry c)) :
    Inv it key S inv children.length (moveForward it key children) ∧
      IsFirst key (union S children.length) p (entry it (moveForward it key children)) := by
  obtain ⟨hfirst, hbest⟩ := isFirst_bestChild _ (fun _ _ => mem_validChildren) hp hapart h
  rw [entry, moveForward, findSmallest]
  cases hb : bestChild (fun a b => decide (key a < key b)) none (validChildren it children) with
  | none =>
    rw [hb] at hfirst
    exact ⟨⟨rfl, hinv, fun i hi => (by cases hi)⟩, hfirst⟩
  | some best =>
    obtain ⟨⟨c, hc, ha⟩, hrest⟩ := hbest best.1 best.2 hb
    rw [hb] at hfirst
    refine ⟨⟨rfl, hinv, fun i hi => ?_⟩, ?_⟩
    · obtain rfl := some.inj hi
      exact ⟨best.2, ⟨c, hc, ha⟩, fun _ => hrest, fun hrev => (by cases hrev)⟩
    · simpa only [map_some, bind_some, hc, ha] using hfirst

theorem moveBackward_spec {p : ι → Prop} (hp : ∀ i j, i ≤ j → p j → p i) (hapart : Apart key S)
    (hinv : ∀ i c, children[i]? = some c → inv i c)
    (h : ∀ i c, children[i]? = some c → IsLast key (S i) p (it.entry c)) :
    Inv it key S inv children.length (moveBackward it key children) ∧
      IsLast key (union S children.length) p (entry it (moveBackward it key children)) := by
  obtain ⟨hlast, hbest⟩ := isFirst_bestChild (fun a => OrderDual.toDual (key a))
    (l := (validChildren it children).reverse)
    (fun i a => by rw [mem_reverse]; exact mem_validChildren) (fun i j hij => hp j i hij)
    (fun i j hij a ha b hb heq => hapart i j hij a ha b hb (OrderDual.toDual.injective heq))
    fun i c hc => isLast_iff_dual.1 (h i c hc)
  have hlast : IsLast key (union S children.length) p
    ((bestChild (fun a b => decide (key b < key a))
    none (validChildren it children).reverse).map Prod.snd) := isLast_iff_dual.2 hlast
  rw [entry, moveBackward, findLargest]
  cases hb : bestChild (fun a b => decide (key b < key a)) none
    (validChildren it children).reverse with
  | none =>
    rw [hb] at hlast
    exact ⟨⟨rfl, hinv, fun i hi => (by cases hi)⟩, hlast⟩
  | some best =>
    obtain ⟨⟨c, hc, ha⟩, hrest⟩ := hbest best.1 best.2 hb
    rw [hb] at hlast
    refine ⟨⟨rfl, hinv, fun i hi => ?_⟩, ?_⟩
    · obtain rfl := some.inj hi
      exact ⟨best.2, ⟨c, hc, ha⟩, fun hfor => (by cases hfor),
        fun _ j d hj hd => isLast_iff_dual.2 (hrest j d hj hd)⟩
    · simpa only [map_some, bind_some, hc, ha] using hlast

/-! ### Moves -/

theorem moveChildren_spec (move : ℕ → σ → Option σ) {P : ℕ → σ → Prop} (k : ℕ)
    (h : ∀ i c, children[i]? = some c → ∃ c', move (k + i) c = some c' ∧ P (k + i) c') :
    ∃ children', moveChildren move k children = some children' ∧
      children'.length = children.length ∧ ∀ i c, children'[i]? = some c → P (k + i) c := by
  induction children generalizing k with
  | nil => exact ⟨[], rfl, rfl, fun i c hc => (by cases hc)⟩
  | cons child children ih =>
    obtain ⟨child', hchild, hP⟩ := h 0 child rfl
    obtain ⟨children', hrest, hlen, hall⟩ := ih (k + 1) fun i c hc => by
      have := h (i + 1) c hc
      rwa [← Nat.add_assoc, Nat.add_right_comm] at this
    rw [Nat.add_zero] at hchild hP
    refine ⟨child' :: children', by rw [moveChildren, hchild, bind_some, hrest]; rfl,
      congrArg Nat.succ hlen, fun i c hc => ?_⟩
    cases i with
    | zero =>
      obtain rfl := some.inj hc
      exact hP
    | succ i =>
      have := hall i c hc
      rwa [Nat.add_right_comm, Nat.add_assoc] at this

theorem moveAll_spec {n : ℕ} {m : MergingIterator σ} (hm : Inv it key S inv n m)
    {move : σ → Option σ} {P : ℕ → σ → Prop}
    (hmove : ∀ i < n, ∀ c, inv i c → ∃ c', move c = some c' ∧ inv i c' ∧ P i c') :
    ∃ children', moveChildren (fun _ => move) 0 m.children = some children' ∧
      children'.length = n ∧ ∀ i c, children'[i]? = some c → inv i c ∧ P i c := by
  obtain ⟨children, hchildren, hlen, hall⟩ := moveChildren_spec _ 0
    (P := fun i c => inv i c ∧ P i c) fun i c hc => by
      rw [Nat.zero_add]
      exact hmove i (hm.length ▸ (List.getElem?_eq_some_iff.1 hc).1) c (hm.child i c hc)
  refine ⟨children, hchildren, hlen.trans hm.length, fun i c hc => ?_⟩
  have := hall i c hc
  rwa [Nat.zero_add] at this

/-- A step leaves every child where it has to be, if turning and moving do. -/
theorem step_spec {n : ℕ} {m : MergingIterator σ} (hm : Inv it key S inv n m)
    {direction : Direction}
    {turn : α → σ → Option σ} {move : σ → Option σ} {P : ℕ → σ → Prop} {i : ℕ} {a : α}
    (hcurrent : m.current = some i) (ha : Placed it key S m i a)
    (hsame : m.direction = direction → ∀ j c, j ≠ i → m.children[j]? = some c → P j c)
    (hturn : ∀ j c, j < n → inv j c → ∃ c', turn a c = some c' ∧ inv j c' ∧ P j c')
    (hmove : ∀ c, i < n → inv i c → it.entry c = some a →
      ∃ c', move c = some c' ∧ inv i c' ∧ P i c') :
    ∃ children', step it direction turn move m = some children' ∧ children'.length = n ∧
      ∀ j c, children'[j]? = some c → inv j c ∧ P j c := by
  obtain ⟨c, hc, hentry⟩ := ha.current
  have hi : i < n := hm.length ▸ (List.getElem?_eq_some_iff.1 hc).1
  have hm' : entry it m = some a := by rw [entry, hcurrent, bind_some, hc, bind_some,
    hentry]
  obtain ⟨c', hc', hinv', hP'⟩ := hmove c hi (hm.child i c hc) hentry
  -- the children after turning: the current one has not moved
  obtain ⟨turned, hturned, hlen, hcur, hothers⟩ : ∃ turned,
      (if m.direction = direction then some m.children
        else moveChildren (fun j child => if j = i then some child else turn a child)
          0 m.children) =
        some turned ∧ turned.length = n ∧ turned[i]? = some c ∧
      ∀ j d, j ≠ i → turned[j]? = some d → inv j d ∧ P j d := by
    by_cases hdir : m.direction = direction
    · exact ⟨m.children, if_pos hdir, hm.length, hc, fun j d hj hd =>
        ⟨hm.child j d hd, hsame hdir j d hj hd⟩⟩
    · obtain ⟨turned, hturned, hlen, hall⟩ := moveChildren_spec
        (fun j child => if j = i then some child else turn a child) 0
        (P := fun j d => if j = i then d = c else inv j d ∧ P j d) fun j d hd => by
          rw [Nat.zero_add]
          by_cases hj : j = i
          · subst hj
            exact ⟨d, if_pos rfl, by rw [if_pos rfl]; exact some.inj (hd.symm.trans hc)⟩
          · obtain ⟨d', hd', hP⟩ := hturn j d (hm.length ▸ (List.getElem?_eq_some_iff.1 hd).1)
              (hm.child j d hd)
            exact ⟨d', by rw [if_neg hj]; exact hd', by rw [if_neg hj]; exact hP⟩
      refine ⟨turned, by rw [if_neg hdir]; exact hturned, hlen.trans hm.length, ?_,
        fun j d hj hd => ?_⟩
      · have hlt : i < turned.length := by rw [hlen, hm.length]; exact hi
        have := hall i _ (List.getElem?_eq_getElem hlt)
        rw [Nat.zero_add, if_pos rfl] at this
        rw [List.getElem?_eq_getElem hlt, this]
      · have := hall j d hd
        rwa [Nat.zero_add, if_neg hj] at this
  refine ⟨turned.set i c', ?_, by rw [length_set, hlen], fun j d hd => ?_⟩
  · rw [step, hcurrent, hm']
    simp only [hturned, bind_some, hcur, hc', map_some]
  · by_cases hj : j = i
    · subst hj
      rw [List.getElem?_set_self (hlen.symm ▸ hi)] at hd
      obtain rfl := some.inj hd
      exact ⟨hinv', hP'⟩
    · rw [List.getElem?_set_ne (Ne.symm hj)] at hd
      exact hothers j d hj hd

theorem seekAfter_spec {T : Set α} {inv : σ → Prop} (h : it.Iterates key T inv) (a : α) {c : σ}
    (hc : inv c) : ∃ c', seekAfter it key a c = some c' ∧ inv c' ∧
      IsFirst key T (fun k => key a < k) (it.entry c') := by
  obtain ⟨c₁, hc₁, hinv₁, hfirst⟩ := h.seek c (key a) hc
  rw [seekAfter, hc₁, bind_some]
  cases hentry : it.entry c₁ with
  | none =>
    refine ⟨c₁, rfl, hinv₁, ?_⟩
    rw [hentry] at hfirst ⊢
    exact fun b hb hlt => hfirst b hb hlt.le
  | some b =>
    by_cases hkey : key a = key b
    · simp only [if_pos hkey]
      rw [hkey]
      exact h.next c₁ b hinv₁ hentry
    · simp only [if_neg hkey]
      refine ⟨c₁, rfl, hinv₁, ?_⟩
      rw [hentry] at hfirst ⊢
      exact ⟨hfirst.1, hfirst.2.1.lt_of_ne hkey, fun x hx hlt => hfirst.2.2 x hx hlt.le⟩

theorem seekBefore_spec {T : Set α} {inv : σ → Prop} (h : it.Iterates key T inv) (a : α) {c : σ}
    (hc : inv c) : ∃ c', seekBefore it key a c = some c' ∧ inv c' ∧
      IsLast key T (fun k => k < key a) (it.entry c') := by
  obtain ⟨c₁, hc₁, hinv₁, hfirst⟩ := h.seek c (key a) hc
  rw [seekBefore, hc₁, bind_some]
  cases hentry : it.entry c₁ with
  | none =>
    rw [hentry] at hfirst
    obtain ⟨c₂, hc₂, hinv₂, hlast⟩ := h.seekToLast c₁ hinv₁
    exact ⟨c₂, hc₂, hinv₂, hlast.congr fun b hb => iff_of_true trivial (not_le.1 (hfirst b hb))⟩
  | some b =>
    rw [hentry] at hfirst
    obtain ⟨c₂, hc₂, hinv₂, hlast⟩ := h.prev c₁ b hinv₁ hentry
    refine ⟨c₂, hc₂, hinv₂, hlast.congr fun x hx => ⟨fun hlt => ?_, fun hlt => ?_⟩⟩
    · exact not_le.1 fun hle => absurd (hfirst.2.2 x hx hle) (not_le.2 hlt)
    · exact hlt.trans_le hfirst.2.1

end MergingIterator

open MergingIterator in
/-- **The merging iterator iterates the entries of all children.** -/
theorem iterates_merging {σ α ι : Type*} [LinearOrder ι] {it : SortedIterator σ α ι} {key : α → ι}
    {S : ℕ → Set α} {inv : ℕ → σ → Prop} {n : ℕ} (hapart : Apart key S)
    (h : ∀ i < n, it.Iterates key (S i) (inv i)) :
    (MergingIterator.iterator it key).Iterates key (union S n) (Inv it key S inv n) where
  mem := by
    intro m a hm ha
    obtain ⟨i, hi, ha⟩ := bind_eq_some_iff.1 ha
    obtain ⟨c, hc, ha⟩ := bind_eq_some_iff.1 ha
    have hlt : i < n := hm.length ▸ (List.getElem?_eq_some_iff.1 hc).1
    exact ⟨i, hlt, (h i hlt).mem c a (hm.child i c hc) ha⟩
  seekToFirst := by
    intro m hm
    obtain ⟨children, hmove, hlen, hall⟩ := moveAll_spec hm fun i hi => (h i hi).seekToFirst
    obtain ⟨hinv, hfirst⟩ := moveForward_spec (fun _ _ _ _ => trivial) hapart
      (fun i c hc => (hall i c hc).1) fun i c hc => (hall i c hc).2
    rw [hlen] at hinv hfirst
    exact ⟨_, by simp only [iterator, hmove, map_some], hinv, hfirst⟩
  seekToLast := by
    intro m hm
    obtain ⟨children, hmove, hlen, hall⟩ := moveAll_spec hm fun i hi => (h i hi).seekToLast
    obtain ⟨hinv, hlast⟩ := moveBackward_spec (fun _ _ _ _ => trivial) hapart
      (fun i c hc => (hall i c hc).1) fun i c hc => (hall i c hc).2
    rw [hlen] at hinv hlast
    exact ⟨_, by simp only [iterator, hmove, map_some], hinv, hlast⟩
  seek := by
    intro m target hm
    obtain ⟨children, hmove, hlen, hall⟩ := moveAll_spec hm fun i hi c => (h i hi).seek c target
    obtain ⟨hinv, hfirst⟩ := moveForward_spec (fun _ _ hij hi => hi.trans hij) hapart
      (fun i c hc => (hall i c hc).1) fun i c hc => (hall i c hc).2
    rw [hlen] at hinv hfirst
    exact ⟨_, by simp only [iterator, hmove, map_some], hinv, hfirst⟩
  next := by
    intro m a hm ha
    obtain ⟨i, hi, hci⟩ := bind_eq_some_iff.1 ha
    obtain ⟨a', ha'⟩ := hm.placed i hi
    obtain rfl : a' = a := by
      obtain ⟨c, hc, hca⟩ := ha'.current
      rw [hc, bind_some, hca] at hci
      exact some.inj hci
    obtain ⟨children, hstep, hlen, hall⟩ := step_spec hm
      (P := fun j c => IsFirst key (S j) (fun k => key a' < k) (it.entry c)) hi ha' ha'.forward
      (fun j c hj hc => seekAfter_spec (h j hj) a' hc)
      fun c hlt hc hca => (h i hlt).next c a' hc hca
    obtain ⟨hinv, hfirst⟩ := moveForward_spec (fun _ _ hij hi => hi.trans_le hij) hapart
      (fun j c hc => (hall j c hc).1) fun j c hc => (hall j c hc).2
    rw [hlen] at hinv hfirst
    exact ⟨_, by simp only [iterator, hstep, map_some], hinv, hfirst⟩
  prev := by
    intro m a hm ha
    obtain ⟨i, hi, hci⟩ := bind_eq_some_iff.1 ha
    obtain ⟨a', ha'⟩ := hm.placed i hi
    obtain rfl : a' = a := by
      obtain ⟨c, hc, hca⟩ := ha'.current
      rw [hc, bind_some, hca] at hci
      exact some.inj hci
    obtain ⟨children, hstep, hlen, hall⟩ := step_spec hm
      (P := fun j c => IsLast key (S j) (fun k => k < key a') (it.entry c)) hi ha' ha'.reverse
      (fun j c hj hc => seekBefore_spec (h j hj) a' hc)
      fun c hlt hc hca => (h i hlt).prev c a' hc hca
    obtain ⟨hinv, hlast⟩ := moveBackward_spec (fun _ _ hij hi => hij.trans_lt hi) hapart
      (fun j c hc => (hall j c hc).1) fun j c hc => (hall j c hc).2
    rw [hlen] at hinv hlast
    exact ⟨_, by simp only [iterator, hstep, map_some], hinv, hlast⟩

open MergingIterator in
/-- **The merging iterator is a cursor over the sorted union.**  The children are any iterators over
sorted lists without a common key; `l` is the sorted list of all their elements.  The two sides
stand at the same element after every sequence of calls, and only moves to a neighbour of no
element do not return. -/
theorem merging_eq_cursor {σ α ι : Type*} [LinearOrder ι] (it : SortedIterator σ α ι) (key : α → ι)
    (ls : List (List α)) (inv : ℕ → σ → Prop)
    (hiter : ∀ i < ls.length, it.Iterates key {a | a ∈ ls.getD i []} (inv i))
    (hapart : Apart key fun i => {a | a ∈ ls.getD i []}) (l : List α) (hperm : l.Perm ls.flatten)
    (hsorted : l.Pairwise fun a b => key a < key b) (children : List σ)
    (hlen : children.length = ls.length) (hinv : ∀ i c, children[i]? = some c → inv i c)
    (calls : List (Call ι)) :
    Option.Rel (fun m (c : ListCursor α) => MergingIterator.entry it m = c.entries[c.index]?)
      (Steps.run (iterator it key).call ⟨children, none, .kForward⟩ calls)
      (Steps.run (list key).call ⟨l, l.length⟩ calls) := by
  have hunion : union (fun i => {a | a ∈ ls.getD i []}) ls.length = {a | a ∈ l} := by
    rw [union_getD]
    ext a
    rw [Set.mem_ofPred_eq, Set.mem_ofPred_eq, hperm.mem_iff, mem_flatten]
  have hmerging := iterates_merging hapart hiter
  rw [hunion] at hmerging
  have hguard : (iterator it key).Guarded (Inv it key (fun i => {a | a ∈ ls.getD i []}) inv
      ls.length) := by
    intro m _ hnone
    have hnone : MergingIterator.entry it m = none := hnone
    simp only [iterator, step, hnone]
    cases m.current <;> exact ⟨rfl, rfl⟩
  have hstart : Agree (iterator it key) (list key) (Inv it key (fun i => {a | a ∈ ls.getD i []}) inv
      ls.length) (fun s => s.entries = l) ⟨children, none, .kForward⟩ ⟨l, l.length⟩ :=
    ⟨⟨hlen, hinv, fun i hi => (by cases hi)⟩, rfl, (List.getElem?_eq_none le_rfl).symm⟩
  have hagree := hmerging.calls_agree (iterates_list hsorted) hguard (guarded_list l)
    (injOn_of_sorted hsorted) hstart calls
  generalize Steps.run (iterator it key).call ⟨children, none, .kForward⟩ calls = x at *
  generalize Steps.run (list key).call ⟨l, l.length⟩ calls = y at *
  cases hagree with
  | none => exact .none
  | some h => exact .some h.2.2

/-- Two children between whose entries the iterator turns round. -/
theorem merging_eq_cursor_twoLists :
    Option.Rel (fun m (c : ListCursor ℕ) => m.entry (list id) = c.entries[c.index]?)
      (Steps.run (MergingIterator.iterator (list id) id).call ⟨[⟨[1, 4], 2⟩, ⟨[2, 3], 2⟩], none,
        .kForward⟩ [.seek 3, .prev, .prev, .next])
      (Steps.run (list id).call ⟨[1, 2, 3, 4], 4⟩ [.seek 3, .prev, .prev, .next]) := by
  refine merging_eq_cursor (list id) id [[1, 4], [2, 3]]
    (fun i c => c.entries = [[1, 4], [2, 3]].getD i []) ?_ ?_ [1, 2, 3, 4] (by decide) (by decide)
    [⟨[1, 4], 2⟩, ⟨[2, 3], 2⟩] rfl ?_ _
  · rintro (_ | _ | i) hi
    · exact iterates_list (by decide)
    · exact iterates_list (by decide)
    · exact absurd hi (by simp)
  · rintro (_ | _ | i) (_ | _ | j) hij a ha b hb <;> simp_all <;> omega
  · rintro (_ | _ | i) c hc <;> cases hc <;> rfl

end Bourbon
