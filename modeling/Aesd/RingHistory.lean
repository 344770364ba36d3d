import Mathlib.Data.List.DropRight
import Mathlib.Data.List.Rotate
import Mathlib.Data.Nat.ModEq

/-!
A fixed array of slots with two wrapping indices and a flag, seen as a window
on the list of all items ever stored. Item k sits in slot k % cap until item
k + cap replaces it, so the last cap items are exactly the occupied window.
The list of items is ghost data: a ring implementation keeps only the array,
the indices and the flag, which the list determines.
-/
namespace Aesd.RingHistory

variable {α : Type*}

/-- The array, the indices and the flag are those reached by storing `xs`. -/
structure Tracks (cap : ℕ) (blank : α) (slot : ℕ → α) (inOffs outOffs : ℕ)
    (full : Bool) (xs : List α) : Prop where
  in_eq : inOffs = xs.length % cap
  out_eq : outOffs = (xs.length - cap) % cap
  full_iff : full = true ↔ cap ≤ xs.length
  stored : ∀ k (hk : k < xs.length), xs.length ≤ k + cap → slot (k % cap) = xs[k]
  untouched : ∀ j, xs.length ≤ j → j < cap → slot j = blank

/-- The `len` slots met when walking from `outOffs` with wrap-around. -/
def window (cap : ℕ) (slot : ℕ → α) (outOffs len : ℕ) : List α :=
  (List.range len).map (fun i => slot ((outOffs + i) % cap))

@[simp] theorem length_window (cap : ℕ) (slot : ℕ → α) (outOffs len : ℕ) :
    (window cap slot outOffs len).length = len := by
  simp [window]

theorem getElem_window (cap : ℕ) (slot : ℕ → α) (outOffs len i : ℕ)
    (h : i < (window cap slot outOffs len).length) :
    (window cap slot outOffs len)[i] = slot ((outOffs + i) % cap) := by
  simp [window]

/-- Walking once around the whole ring is a rotation of the array. -/
theorem window_full (cap : ℕ) (slot : ℕ → α) (outOffs : ℕ) :
    window cap slot outOffs cap = ((List.range cap).map slot).rotate outOffs := by
  apply List.ext_getElem
  · simp
  · intro i h1 h2
    rw [getElem_window, List.getElem_rotate]
    simp [Nat.add_comm i]

/-- Number of slots from `outOffs` up to `inOffs`; the flag tells a full ring
from an empty one when the two indices meet. -/
def occupied (cap inOffs outOffs : ℕ) (full : Bool) : ℕ :=
  if inOffs = outOffs then (if full then cap else 0) else (inOffs + cap - outOffs) % cap

theorem tracks_nil (cap : ℕ) (blank : α) (hcap : 0 < cap) :
    Tracks cap blank (fun _ => blank) 0 0 false [] where
  in_eq := by simp
  out_eq := by simp
  full_iff := by simp; omega
  stored k hk := by simp at hk
  untouched _ _ _ := rfl

namespace Tracks

variable {cap inOffs outOffs : ℕ} {blank : α} {slot : ℕ → α} {full : Bool} {xs : List α}

theorem in_lt (h : Tracks cap blank slot inOffs outOffs full xs) (hcap : 0 < cap) :
    inOffs < cap := by
  rw [h.in_eq]
  exact Nat.mod_lt _ hcap

theorem out_lt (h : Tracks cap blank slot inOffs outOffs full xs) (hcap : 0 < cap) :
    outOffs < cap := by
  rw [h.out_eq]
  exact Nat.mod_lt _ hcap

/-- The slot written next holds the oldest item once the ring is full. -/
theorem oldest (h : Tracks cap blank slot inOffs outOffs full xs) (hcap : 0 < cap)
    (hfull : cap ≤ xs.length) : slot inOffs = xs[xs.length - cap] := by
  have hmod : (xs.length - cap) % cap = inOffs := by
    rw [h.in_eq, ← Nat.mod_eq_sub_mod hfull]
  rw [← h.stored (xs.length - cap) (by omega) (by omega), hmod]

theorem in_eq_out_iff (h : Tracks cap blank slot inOffs outOffs full xs) :
    inOffs = outOffs ↔ xs = [] ∨ full = true := by
  rw [h.in_eq, h.out_eq, h.full_iff]
  rcases Nat.lt_or_ge xs.length cap with hlt | hge
  · rw [Nat.sub_eq_zero_of_le hlt.le, Nat.zero_mod, Nat.mod_eq_of_lt hlt,
      List.length_eq_zero_iff]
    constructor
    · exact Or.inl
    · rintro (hnil | hfull)
      · exact hnil
      · omega
  · constructor
    · exact fun _ => Or.inr hge
    · intro _
      exact Nat.mod_eq_sub_mod hge

theorem occupied_eq (h : Tracks cap blank slot inOffs outOffs full xs) (hcap : 0 < cap) :
    occupied cap inOffs outOffs full = min xs.length cap := by
  have hmeet := h.in_eq_out_iff
  have hfull := h.full_iff
  unfold occupied
  split
  · rename_i heq
    rcases hmeet.mp heq with hnil | hf
    · subst hnil
      have hff : full = false := by
        cases full with
        | false => rfl
        | true =>
          have hle := hfull.mp rfl
          simp at hle
          omega
      simp [hff]
    · rw [if_pos hf, Nat.min_eq_right (hfull.mp hf)]
  · rename_i hne
    have hlt : xs.length < cap := by
      by_contra hge
      exact hne (hmeet.mpr (Or.inr (hfull.mpr (by omega))))
    have hin := h.in_eq
    have hout := h.out_eq
    rw [Nat.mod_eq_of_lt hlt] at hin
    rw [Nat.sub_eq_zero_of_le hlt.le, Nat.zero_mod] at hout
    rw [hin, hout, Nat.sub_zero, Nat.add_mod_right, Nat.mod_eq_of_lt hlt,
      Nat.min_eq_left hlt.le]

/-- Walking the occupied slots from `outOffs` meets the newest items, oldest first. -/
theorem window_eq (h : Tracks cap blank slot inOffs outOffs full xs) :
    window cap slot outOffs (min xs.length cap) = xs.rtake cap := by
  apply List.ext_getElem
  · simp [List.rtake]
    omega
  · intro i h1 h2
    have hi : i < min xs.length cap := by simpa using h1
    have hslot := h.stored (xs.length - cap + i) (by omega) (by omega)
    rw [getElem_window, h.out_eq, Nat.mod_add_mod, hslot]
    simp [List.rtake]

/-- The occupied slots are the first ones of the array, in some order. -/
theorem window_perm (h : Tracks cap blank slot inOffs outOffs full xs) :
    (window cap slot outOffs (min xs.length cap)).Perm
      ((List.range (min xs.length cap)).map slot) := by
  rcases Nat.lt_or_ge xs.length cap with hlt | hge
  · have hout : outOffs = 0 := by
      rw [h.out_eq, Nat.sub_eq_zero_of_le hlt.le, Nat.zero_mod]
    have hsame : window cap slot outOffs (min xs.length cap) =
        (List.range (min xs.length cap)).map slot := by
      apply List.map_congr_left
      intro i hi
      rw [List.mem_range] at hi
      rw [hout, Nat.zero_add, Nat.mod_eq_of_lt (by omega)]
    rw [hsame]
  · rw [Nat.min_eq_right hge, window_full]
    exact List.rotate_perm _ _

/-- A slot that has been written holds the newest item that belongs there. -/
theorem exists_stored (h : Tracks cap blank slot inOffs outOffs full xs) (j : ℕ) (hj : j < cap)
    (hlt : j < xs.length) :
    ∃ k, ∃ hk : k < xs.length, k % cap = j ∧ xs.length ≤ k + cap ∧ slot j = xs[k] := by
  have hrest := Nat.mod_lt (xs.length - 1 - j) (Nat.zero_lt_of_lt hj)
  have hdiv := Nat.div_add_mod (xs.length - 1 - j) cap
  have hmod : (j + cap * ((xs.length - 1 - j) / cap)) % cap = j := by
    rw [Nat.add_mul_mod_self_left, Nat.mod_eq_of_lt hj]
  have hslot := h.stored (j + cap * ((xs.length - 1 - j) / cap)) (by omega) (by omega)
  rw [hmod] at hslot
  exact ⟨_, _, hmod, by omega, hslot⟩

/-- Two rings whose items agree in what `f` and `g` see of them agree slot by slot. -/
theorem agree {β γ : Type*} {inOffs' outOffs' : ℕ} {blank' : β} {slot' : ℕ → β} {full' : Bool}
    {ys : List β} (h : Tracks cap blank slot inOffs outOffs full xs)
    (h' : Tracks cap blank' slot' inOffs' outOffs' full' ys) (f : α → γ) (g : β → γ)
    (hblank : f blank = g blank') (hitems : xs.map f = ys.map g) (j : ℕ) (hj : j < cap) :
    f (slot j) = g (slot' j) := by
  have hlen : xs.length = ys.length := by simpa using congrArg List.length hitems
  by_cases hlt : j < xs.length
  · obtain ⟨k, hk, hmod, hnew, hslot⟩ := h.exists_stored j hj hlt
    have hslot' := h'.stored k (by omega) (by omega)
    have hitem : f xs[k] = g ys[k] := by
      have hget := congrArg (fun zs => zs[k]?) hitems
      simpa [hk, hlen ▸ hk] using hget
    rw [hmod] at hslot'
    rw [hslot, hslot', hitem]
  · rw [h.untouched j (by omega) hj, h'.untouched j (by omega) hj, hblank]

private theorem mod_ne_of_close {k n : ℕ} (hkn : k < n) (hclose : n < k + cap) :
    k % cap ≠ n % cap := by
  intro heq
  have hdvd : cap ∣ n - k := (Nat.modEq_iff_dvd' hkn.le).mp heq
  have hle := Nat.le_of_dvd (by omega) hdvd
  omega

/-- Storing one more item: the write index advances, the read index advances
only on a full ring, and the flag is set as soon as the indices meet. -/
theorem push (h : Tracks cap blank slot inOffs outOffs full xs) (x : α) :
    Tracks cap blank (Function.update slot inOffs x) ((inOffs + 1) % cap)
      (if full then (outOffs + 1) % cap else outOffs)
      (full || decide ((inOffs + 1) % cap =
        if full then (outOffs + 1) % cap else outOffs)) (xs ++ [x]) := by
  have hfull := h.full_iff
  have hin : (inOffs + 1) % cap = (xs.length + 1) % cap := by
    rw [h.in_eq, Nat.mod_add_mod]
  have hout : (if full then (outOffs + 1) % cap else outOffs) =
      (xs.length + 1 - cap) % cap := by
    by_cases hf : full = true
    · have hge := hfull.mp hf
      rw [if_pos hf, h.out_eq, Nat.mod_add_mod]
      congr 1
      omega
    · have hlt : xs.length < cap := by
        by_contra hge
        exact hf (hfull.mpr (by omega))
      rw [if_neg hf, h.out_eq, Nat.sub_eq_zero_of_le hlt.le, Nat.sub_eq_zero_of_le hlt]
  constructor
  · rw [hin, List.length_append, List.length_singleton]
  · rw [hout, List.length_append, List.length_singleton]
  · rw [hin, hout, List.length_append, List.length_singleton, Bool.or_eq_true,
      decide_eq_true_eq, hfull]
    constructor
    · rintro (hge | heq)
      · omega
      · by_contra hlt
        rw [Nat.sub_eq_zero_of_le (by omega), Nat.zero_mod, Nat.mod_eq_of_lt (by omega)] at heq
        omega
    · intro hge
      by_cases hold : cap ≤ xs.length
      · exact Or.inl hold
      · have hnow : xs.length + 1 = cap := by omega
        right
        rw [hnow, Nat.mod_self, Nat.sub_self, Nat.zero_mod]
  · intro k hk hclose
    rw [List.length_append, List.length_singleton] at hk hclose
    by_cases hlast : k = xs.length
    · subst hlast
      rw [h.in_eq, Function.update_self]
      simp
    · have hold : k < xs.length := by omega
      have hne : k % cap ≠ inOffs := by
        rw [h.in_eq]
        exact mod_ne_of_close hold (by omega)
      rw [Function.update_of_ne hne, h.stored k hold (by omega)]
      exact (List.getElem_append_left hold).symm
  · intro j hj hjcap
    rw [List.length_append, List.length_singleton] at hj
    have hne : j ≠ inOffs := by
      rw [h.in_eq, Nat.mod_eq_of_lt (by omega)]
      omega
    rw [Function.update_of_ne hne]
    exact h.untouched j (by omega) hjcap

end Tracks

end Aesd.RingHistory
