import Aesd.Heap
import Aesd.Runs

/-!
A store seen by a user who does not know of all its cells. Releasing heap blocks that
the user knows of is the same with and without the others. Descriptor tables hand
out the lowest cell that is free.
-/
namespace Aesd

namespace Store

variable {α : Type*}

/-- The store without the cells in `away`. -/
def hide (s : Store α) (away : ℕ → Bool) : Store α where
  data k := if away k then none else s.data k
  limit := s.limit
  free_above k hk := by rw [s.free_above k hk, ite_self]

theorem data_hide (s : Store α) (away : ℕ → Bool) (k : ℕ) :
    (s.hide away).data k = if away k then none else s.data k :=
  rfl

theorem data_hide_of_not (s : Store α) {away : ℕ → Bool} {k : ℕ} (h : away k = false) :
    (s.hide away).data k = s.data k := by
  rw [data_hide, h]
  rfl

theorem data_hide_ne_none_iff (s : Store α) (away : ℕ → Bool) (k : ℕ) :
    (s.hide away).data k ≠ none ↔ away k = false ∧ s.data k ≠ none := by
  rw [data_hide]
  cases away k with
  | true => simp
  | false => simp

theorem data_of_hide {s : Store α} {away : ℕ → Bool} {k : ℕ} {a : α}
    (h : (s.hide away).data k = some a) : s.data k = some a := by
  have hseen : away k = false := ((s.data_hide_ne_none_iff away k).mp (by simp [h])).1
  rw [← h, data_hide_of_not s hseen]

theorem hide_erase (s : Store α) (away : ℕ → Bool) (k : ℕ) :
    (s.erase k).hide away = (s.hide away).erase k := by
  have hdata : ((s.erase k).hide away).data = ((s.hide away).erase k).data := by
    funext j
    by_cases hj : j = k
    · subst hj
      rw [data_hide, data_erase_self, data_erase_self, ite_self]
    · rw [data_hide, data_erase_of_ne _ hj, data_erase_of_ne _ hj, data_hide]
  unfold hide erase
  unfold hide erase at hdata
  simpa using hdata

/-- A cell that is taken and given back at once leaves the store as it was. -/
theorem data_erase_set (s : Store α) (a : α) {k : ℕ} (h : s.data k = none) (j : ℕ) :
    ((s.set k a).erase k).data j = s.data j := by
  by_cases hj : j = k
  · rw [hj, data_erase_self, h]
  · rw [data_erase_of_ne _ hj, data_set_of_ne _ _ hj]

/-- The lowest cell that is free. -/
def lowest (s : Store α) : ℕ :=
  ((List.range s.limit).find? (fun k => (s.data k).isNone)).getD s.limit

theorem data_lowest (s : Store α) : s.data s.lowest = none := by
  unfold lowest
  cases hfind : (List.range s.limit).find? (fun k => (s.data k).isNone) with
  | none => exact s.free_above _ le_rfl
  | some k =>
    have hfree := List.find?_some hfind
    simpa using hfree

theorem lowest_le (s : Store α) {k : ℕ} (h : s.data k = none) : s.lowest ≤ k := by
  unfold lowest
  cases hfind : (List.range s.limit).find? (fun k => (s.data k).isNone) with
  | none =>
    by_contra hlt
    have htaken := List.find?_eq_none.mp hfind k (List.mem_range.mpr (by simpa using hlt))
    simp [h] at htaken
  | some j =>
    by_contra hlt
    obtain ⟨_, i, hi, hj, hbefore⟩ := List.find?_eq_some_iff_getElem.mp hfind
    rw [List.getElem_range] at hj
    rw [List.length_range] at hi
    have hk : k < j := by simpa using hlt
    have htaken := hbefore k (by omega)
    simp [h] at htaken

/-- What is free stays so, apart from the cell in question; so the lowest free cell is the
same after it has been taken and given back. -/
theorem lowest_congr {s t : Store α} (h : ∀ k, s.data k = t.data k) : s.lowest = t.lowest :=
  Nat.le_antisymm (s.lowest_le (by rw [h]; exact t.data_lowest))
    (t.lowest_le (by rw [← h]; exact s.data_lowest))

end Store

namespace Heap

variable {β ι : Type*}

theorem kfree_hide (h : Heap β) (away : ℕ → Bool) (ptr : Option ℕ)
    (hptr : ∀ p, ptr = some p → away p = false) :
    kfree (h.hide away) ptr = (h.kfree ptr).map (fun h' => h'.hide away) := by
  cases ptr with
  | none => rfl
  | some p =>
    rw [kfree, kfree, Store.data_hide_of_not h (hptr p rfl), ← Store.hide_erase]
    split
    · rfl
    · rfl

theorem run_kfree_hide (ptr : ι → Option ℕ) (away : ℕ → Bool) (h : Heap β) (is : List ι)
    (hptr : ∀ i ∈ is, ∀ p, ptr i = some p → away p = false) :
    Runs.run (fun h i => kfree h (ptr i)) (h.hide away) is =
      (Runs.run (fun h i => kfree h (ptr i)) h is).map (fun h' => h'.hide away) := by
  induction is generalizing h with
  | nil => rfl
  | cons i rest ih =>
    rw [Runs.run, Runs.run, kfree_hide h away (ptr i) (hptr i List.mem_cons_self)]
    cases hfree : h.kfree (ptr i) with
    | none => rfl
    | some h' => exact ih h' (fun j hj => hptr j (List.mem_cons_of_mem i hj))

/-- Releasing blocks that are not away leaves those that are as they were. -/
theorem run_kfree_away {ptr : ι → Option ℕ} {away : ℕ → Bool} {h h' : Heap β} {is : List ι}
    (hptr : ∀ i ∈ is, ∀ p, ptr i = some p → away p = false)
    (hrun : Runs.run (fun h i => kfree h (ptr i)) h is = some h') (b : ℕ) (hb : away b = true) :
    h'.data b = h.data b := by
  induction is generalizing h with
  | nil =>
    cases hrun
    rfl
  | cons i rest ih =>
    obtain ⟨next, hnext, hrest⟩ := Option.bind_eq_some_iff.mp hrun
    have hother : ptr i ≠ some b := by
      intro hi
      have hnot := hptr i List.mem_cons_self b hi
      rw [hb] at hnot
      cases hnot
    rw [ih (fun j hj => hptr j (List.mem_cons_of_mem i hj)) hrest, kfree_data hnext b,
      if_neg hother]

end Heap

end Aesd
