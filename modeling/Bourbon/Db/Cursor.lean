import Bourbon.Db.Scan

/-!
# DBIter is a cursor

Whatever is called, `DBIter` shows what a cursor over the list of the live user entries shows.

* `DBIter.liveEntries` : the user keys with their values whose newest visible entry is a value;
* `dbIter_eq_cursor` : the two stay at the same element over any sequence of calls.
-/

namespace Bourbon

open SortedIterator

variable {σ K V : Type*} [LinearOrder K]

namespace DBIter

/-- The user keys whose newest entry that `sequence` sees is a value, with these values. -/
def liveEntries (entries : List (Entry K V)) (sequence : ℕ) : List (K × V) :=
  entries.filterMap fun e =>
    if e.1.sequence ≤ sequence ∧ e.1.type = .value ∧ ∀ e' ∈ entries,
        e'.1.user_key = e.1.user_key → e'.1.sequence ≤ sequence → e.1 ≤ e'.1 then
      some (e.1.user_key, e.2)
    else none

variable {entries : List (Entry K V)} {sequence fuel : ℕ}

theorem mem_liveEntries {p : K × V} :
    p ∈ liveEntries entries sequence ↔ p ∈ live {e | e ∈ entries} sequence := by
  simp only [liveEntries, List.mem_filterMap, live, Set.mem_ofPred_eq]
  constructor
  · rintro ⟨e, he, hif⟩
    split_ifs at hif with hnewest
    obtain rfl := Option.some.inj hif
    obtain ⟨hvisible, htype, hfirst⟩ := hnewest
    exact ⟨e, ⟨he, rfl, hvisible, hfirst⟩, htype, rfl⟩
  · rintro ⟨e, hnewest, htype, hvalue⟩
    refine ⟨e, hnewest.mem, ?_⟩
    rw [if_pos ⟨hnewest.visible, htype, fun e' he' huser =>
      hnewest.first e' he' (huser.trans hnewest.user_key)⟩, hnewest.user_key, hvalue]

theorem liveEntries_sorted (hsorted : entries.Pairwise fun a b => a.1 < b.1) :
    (liveEntries entries sequence).Pairwise fun a b => a.1 < b.1 := by
  refine List.pairwise_filterMap.2 (hsorted.imp_of_mem fun {a b} ha hb hab p hp q hq => ?_)
  split_ifs at hp hq with hnewest hnewest'
  obtain rfl := Option.some.inj hp
  obtain rfl := Option.some.inj hq
  refine lt_of_le_of_ne (InternalKey.user_key_le hab.le) fun heq => ?_
  -- two newest entries of one key are the same
  exact absurd (hnewest'.2.2 a ha heq hnewest.1) (not_le.2 hab)

variable {it : SortedIterator σ (Entry K V) (InternalKey K)} {S : Set (Entry K V)}
  {inv : σ → Prop} {d : DBIter σ K V}

theorem Inv.valid_eq (hd : Inv it S sequence inv d) : d.valid = (entry it d).isSome := by
  rw [entry]
  cases hvalid : d.valid with
  | false => rfl
  | true =>
    cases hdirection : d.direction with
    | kForward =>
      obtain ⟨e, hentry, -⟩ := hd.forward hvalid hdirection
      simp [hentry]
    | kReverse =>
      obtain ⟨k, v, hkey, hvalue, -⟩ := hd.reverse hvalid hdirection
      simp [hkey, hvalue]

theorem guarded_iterator : (iterator it sequence fuel).Guarded (Inv it S sequence inv) := by
  intro d hd hnone
  have hvalid : d.valid = false := by
    rw [hd.valid_eq]
    exact Option.isSome_eq_false_iff.2 (Option.isNone_iff_eq_none.2 hnone)
  constructor
  · simp [iterator, next, hvalid]
  · simp [iterator, prev, hvalid]

end DBIter

/-- **`DBIter` is a cursor over the live user entries**: whatever is called, `Valid`, `key` and
`value` are those of a cursor over their list, and a call is possible for the one if and only if it
is possible for the other. -/
theorem dbIter_eq_cursor (it : SortedIterator σ (Entry K V) (InternalKey K)) (inv : σ → Prop)
    (entries : List (Entry K V)) (hsorted : entries.Pairwise fun a b => a.1 < b.1)
    (hiter : it.Iterates Prod.fst {e | e ∈ entries} inv) (iter : σ) (hstart : inv iter)
    (sequence fuel : ℕ) (hfuel : entries.length ≤ fuel) (calls : List (Call K)) :
    Option.Rel
      (fun (d : DBIter σ K V) (c : ListCursor (K × V)) =>
        d.valid = c.entries[c.index]?.isSome ∧ d.entry it = c.entries[c.index]?)
      (Steps.run (DBIter.iterator it sequence fuel).call (newDBIterator iter) calls)
      (Steps.run (list Prod.fst).call ⟨DBIter.liveEntries entries sequence,
        (DBIter.liveEntries entries sequence).length⟩ calls) := by
  have hinj : Set.InjOn Prod.fst {e | e ∈ entries} := fun a ha b hb => eq_of_sorted hsorted ha hb
  have hcard : {e | e ∈ entries}.ncard ≤ fuel := by
    have hchild : {e : Entry K V | ∃ child ∈ [entries], e ∈ child} = {e | e ∈ entries} := by
      ext e
      simp
    have hle := (ncard_children [entries]).2
    rw [hchild] at hle
    simp only [List.map_cons, List.map_nil, List.sum_cons, List.sum_nil, Nat.add_zero] at hle
    exact hle.trans hfuel
  have hdbIter : (DBIter.iterator it sequence fuel).Iterates Prod.fst
      (DBIter.live {e | e ∈ entries} sequence) (DBIter.Inv it {e | e ∈ entries} sequence inv) :=
    iterates_dbIter hiter entries.finite_toSet hinj hcard
  have hlive : ∀ p, p ∈ DBIter.liveEntries entries sequence ↔
      p ∈ DBIter.live {e | e ∈ entries} sequence := fun p => DBIter.mem_liveEntries
  have hlist : (DBIter.liveEntries entries sequence).Pairwise fun a b => a.1 < b.1 :=
    DBIter.liveEntries_sorted hsorted
  generalize DBIter.liveEntries entries sequence = l at hlive hlist ⊢
  have hcursor := iterates_list hlist
  have hset : {p | p ∈ l} = DBIter.live {e | e ∈ entries} sequence := Set.ext hlive
  rw [hset] at hcursor
  have hnew : DBIter.Inv it {e | e ∈ entries} sequence inv (newDBIterator iter) :=
    ⟨hstart, fun hv => (by cases hv), fun hv => (by cases hv)⟩
  have hend : l[l.length]? = none := List.getElem?_eq_none le_rfl
  have hstarts : Agree (DBIter.iterator it sequence fuel) (list Prod.fst)
      (DBIter.Inv it {e | e ∈ entries} sequence inv) (fun s => s.entries = l)
      (newDBIterator iter) ⟨l, l.length⟩ := ⟨hnew, rfl, hend.symm⟩
  have hagree := hdbIter.calls_agree hcursor DBIter.guarded_iterator (guarded_list l)
    (DBIter.live_injOn hinj sequence) hstarts calls
  generalize Steps.run (DBIter.iterator it sequence fuel).call (newDBIterator iter) calls = x at *
  generalize Steps.run (list Prod.fst).call ⟨l, l.length⟩ calls = y at *
  cases hagree with
  | none => exact .none
  | some hagree =>
    obtain ⟨hd, -, heq⟩ := hagree
    refine .some ⟨?_, heq⟩
    rw [hd.valid_eq]
    exact congrArg Option.isSome heq

namespace CursorRun

/-- Two versions of key 1, of which the newer one is not visible at 4; key 2 is deleted. -/
def entries : List (Entry ℕ ℕ) :=
  [(⟨1, 5, .value⟩, 10), (⟨1, 2, .value⟩, 20), (⟨2, 4, .deletion⟩, 0), (⟨2, 1, .value⟩, 30),
    (⟨3, 3, .value⟩, 40)]

end CursorRun

open CursorRun in
theorem dbIter_eq_cursor_backwards :
    entries.Pairwise (fun a b => a.1 < b.1) ∧ DBIter.liveEntries entries 4 = [(1, 20), (3, 40)] ∧
      Option.Rel
        (fun (d : DBIter (ListCursor (Entry ℕ ℕ)) ℕ ℕ) (c : ListCursor (ℕ × ℕ)) =>
          d.valid = c.entries[c.index]?.isSome ∧ d.entry (list Prod.fst) = c.entries[c.index]?)
        (Steps.run (DBIter.iterator (list Prod.fst) 4 5).call (newDBIterator (newCursor entries))
          [.seekToFirst, .next, .prev])
        (Steps.run (list Prod.fst).call ⟨DBIter.liveEntries entries 4,
          (DBIter.liveEntries entries 4).length⟩ [.seekToFirst, .next, .prev]) := by
  have hsorted : entries.Pairwise fun a b => a.1 < b.1 := by decide
  exact ⟨hsorted, by decide, dbIter_eq_cursor (list Prod.fst) _ entries hsorted
    (iterates_list hsorted) (newCursor entries) rfl 4 5 (by decide) _⟩

end Bourbon
