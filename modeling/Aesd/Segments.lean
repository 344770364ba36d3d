import Mathlib.Algebra.BigOperators.Group.List.Basic
import Mathlib.Algebra.Order.Ring.Nat

/-!
Positions in the concatenation of a list of pieces. A position below the total
length lies in exactly one piece, at one offset; dropping everything before it
leaves the rest of that piece followed by the later pieces.
-/
namespace Aesd.Segments

variable {α : Type*}

/-- Piece number and offset of position `p`, from the lengths of the pieces. -/
def locate : List ℕ → ℕ → Option (ℕ × ℕ)
  | [], _ => none
  | n :: rest, p =>
      if p < n then some (0, p)
      else (locate rest (p - n)).map (fun q => (q.1 + 1, q.2))

theorem locate_eq_none_iff (ns : List ℕ) (p : ℕ) : locate ns p = none ↔ ns.sum ≤ p := by
  induction ns generalizing p with
  | nil => simp [locate]
  | cons n rest ih =>
    simp only [locate, List.sum_cons]
    split
    · rename_i hlt
      simp only [reduceCtorEq, false_iff]
      omega
    · rename_i hge
      rw [Option.map_eq_none_iff, ih]
      omega

/-- The lookup finds the only piece whose range of positions contains `p`. -/
theorem locate_eq_some_iff (ns : List ℕ) (p i o : ℕ) :
    locate ns p = some (i, o) ↔
      ∃ h : i < ns.length, o < ns[i] ∧ (ns.take i).sum + o = p := by
  induction ns generalizing p i with
  | nil => simp [locate]
  | cons n rest ih =>
    simp only [locate]
    split
    · rename_i hlt
      cases i with
      | zero =>
        simp only [Option.some.injEq, Prod.mk.injEq, true_and, List.length_cons,
          List.getElem_cons_zero, List.take_zero, List.sum_nil, Nat.zero_add]
        constructor
        · intro heq
          exact ⟨by omega, by omega, heq.symm⟩
        · rintro ⟨_, _, heq⟩
          exact heq.symm
      | succ i =>
        simp only [Option.some.injEq, Prod.mk.injEq, List.take_succ_cons, List.sum_cons]
        constructor
        · rintro ⟨h, _⟩
          omega
        · rintro ⟨_, _, heq⟩
          omega
    · rename_i hge
      cases i with
      | zero =>
        simp only [Option.map_eq_some_iff, Prod.mk.injEq, Nat.add_eq_zero_iff, List.length_cons,
          List.getElem_cons_zero, List.take_zero, List.sum_nil, Nat.zero_add]
        constructor
        · rintro ⟨_, _, ⟨_, h⟩, _⟩
          omega
        · rintro ⟨_, _, _⟩
          omega
      | succ i =>
        have hiff := ih (p - n) i
        simp only [Option.map_eq_some_iff, Prod.mk.injEq, Nat.add_right_cancel_iff,
          List.length_cons, List.getElem_cons_succ, List.take_succ_cons, List.sum_cons]
        constructor
        · rintro ⟨⟨j, q⟩, hloc, rfl, rfl⟩
          obtain ⟨hj, hq, hsum⟩ := hiff.mp hloc
          exact ⟨by omega, hq, by omega⟩
        · rintro ⟨hi, ho, hsum⟩
          exact ⟨(i, o), hiff.mpr ⟨by omega, ho, by omega⟩, rfl, rfl⟩

theorem locate_of_lt (ns : List ℕ) (p : ℕ) (h : p < ns.sum) :
    ∃ i o, locate ns p = some (i, o) := by
  cases hloc : locate ns p with
  | none =>
    rw [locate_eq_none_iff] at hloc
    omega
  | some q => exact ⟨q.1, q.2, rfl⟩

theorem take_sum_add_le (ns : List ℕ) (i : ℕ) (h : i < ns.length) :
    (ns.take i).sum + ns[i] ≤ ns.sum := by
  calc
    (ns.take i).sum + ns[i] = (ns.take (i + 1)).sum := by
      rw [List.take_succ_eq_append_getElem h, List.sum_append, List.sum_singleton]
    _ ≤ (ns.take (i + 1)).sum + (ns.drop (i + 1)).sum := Nat.le_add_right _ _
    _ = ns.sum := List.sum_take_add_sum_drop ns (i + 1)

/-- Dropping up to an offset inside piece `i` leaves the rest of that piece
and all later pieces. -/
theorem drop_flatten (segs : List (List α)) (i o : ℕ) (h : i < segs.length)
    (ho : o ≤ segs[i].length) :
    segs.flatten.drop (((segs.map List.length).take i).sum + o) =
      segs[i].drop o ++ (segs.drop (i + 1)).flatten := by
  induction segs generalizing i with
  | nil => simp at h
  | cons seg rest ih =>
    cases i with
    | zero =>
      have ho' : o ≤ seg.length := ho
      simp [List.drop_append, Nat.sub_eq_zero_of_le ho']
    | succ i =>
      have hrest := ih i (by simpa using h) ho
      simp only [List.map_cons, List.take_succ_cons, List.sum_cons, List.flatten_cons,
        List.getElem_cons_succ, List.drop_succ_cons]
      rw [Nat.add_assoc, ← List.drop_drop, List.drop_left, hrest]

end Aesd.Segments
