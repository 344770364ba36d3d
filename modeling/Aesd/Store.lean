import Mathlib.Logic.Function.Basic
import Mathlib.Order.Lattice

/-!
A table of numbered cells in which only finitely many numbers are in use: heap
blocks, or open descriptors. A new cell is placed at any number the environment
picks, provided it is free; a pick that is taken is replaced by one that is not,
so a request for a new cell never collides with a cell in use.
-/
namespace Aesd

structure Store (α : Type*) where
  data : ℕ → Option α
  limit : ℕ
  free_above : ∀ k, limit ≤ k → data k = none

namespace Store

variable {α : Type*}

def empty : Store α := ⟨fun _ => none, 0, fun _ _ => rfl⟩

def fresh (s : Store α) (pick : ℕ) : ℕ :=
  if (s.data pick).isNone then pick else s.limit

def set (s : Store α) (k : ℕ) (a : α) : Store α where
  data := Function.update s.data k (some a)
  limit := max s.limit (k + 1)
  free_above j hj := by
    have hne : j ≠ k := by omega
    rw [Function.update_of_ne hne]
    exact s.free_above j (by omega)

def erase (s : Store α) (k : ℕ) : Store α where
  data := Function.update s.data k none
  limit := s.limit
  free_above j hj := by
    by_cases hjk : j = k
    · subst j
      exact Function.update_self ..
    · rw [Function.update_of_ne hjk]
      exact s.free_above j hj

def IsEmpty (s : Store α) : Prop := ∀ k, s.data k = none

theorem isEmpty_iff (s : Store α) : s.IsEmpty ↔ ∀ k ∈ List.range s.limit, s.data k = none := by
  constructor
  · intro h k _
    exact h k
  · intro h k
    by_cases hk : k < s.limit
    · exact h k (List.mem_range.mpr hk)
    · exact s.free_above k (by omega)

instance (s : Store α) : Decidable s.IsEmpty := decidable_of_iff _ s.isEmpty_iff.symm

theorem data_fresh (s : Store α) (pick : ℕ) : s.data (s.fresh pick) = none := by
  unfold fresh
  split
  · rename_i h
    exact Option.isNone_iff_eq_none.mp h
  · exact s.free_above _ le_rfl

@[simp] theorem data_set_self (s : Store α) (k : ℕ) (a : α) : (s.set k a).data k = some a :=
  Function.update_self ..

theorem data_set_of_ne (s : Store α) {j k : ℕ} (a : α) (h : j ≠ k) :
    (s.set k a).data j = s.data j :=
  Function.update_of_ne h ..

@[simp] theorem data_erase_self (s : Store α) (k : ℕ) : (s.erase k).data k = none :=
  Function.update_self ..

theorem data_erase_of_ne (s : Store α) {j k : ℕ} (h : j ≠ k) :
    (s.erase k).data j = s.data j :=
  Function.update_of_ne h ..

end Store

end Aesd
