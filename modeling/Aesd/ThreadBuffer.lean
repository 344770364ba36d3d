import Aesd.ThreadFunc

/-!
Room in the buffer of `threadfunc`. The size of the allocation stays in proportion to what
has been received, so nothing overflows below 2^29 bytes, and after every turn there is
room for the next 100 bytes. The buffer starts with the package received so far.
-/
namespace Aesd.ThreadFunc

open Driver

namespace Receiver

/-- The allocation has the size `currentMaxSize` with at least `room` bytes behind the
received ones, of which there are at most `total`; the size stays in proportion to that. -/
structure Fits (t : Receiver) (total : ℕ) (room : ℤ) : Prop where
  length_eq : t.buffer.length = t.currentMaxSize
  nonneg : 0 ≤ t.totalLen
  le_total : t.totalLen ≤ total
  room_le : t.totalLen + room ≤ t.currentMaxSize
  size_ge : initBufferSize ≤ t.currentMaxSize
  size_le : t.currentMaxSize ≤ 2 * (total + initBufferSize)

variable {t : Receiver} {total : ℕ}

theorem fits_start : start.Fits 0 initBufferSize :=
  ⟨rfl, le_rfl, le_rfl, by decide, le_rfl, by decide⟩

theorem initBufferSize_eq : initBufferSize = 100 := rfl

theorem Fits.receive (h : t.Fits total initBufferSize) (piece : Piece)
    (htotal : total + piece.bytes.length < 2 ^ 29) :
    (t.receive piece).totalLen = t.totalLen + piece.bytes.length ∧
      (t.receive piece).Fits (total + piece.bytes.length) 0 := by
  obtain ⟨hlength, hnonneg, hle, hroom, hge, hsize⟩ := h
  have hpiece := piece.le
  have hinit := initBufferSize_eq
  have hlen : (t.receive piece).totalLen = t.totalLen + piece.bytes.length :=
    int32_of_range _ (by omega) (by omega)
  have hbuffer : (t.receive piece).buffer.length = t.buffer.length := by
    simp only [Receiver.receive, List.length_append, List.length_take, List.length_drop]
    omega
  have hmax : (t.receive piece).currentMaxSize = t.currentMaxSize := rfl
  refine ⟨hlen, ?_, ?_, ?_, ?_, hge, ?_⟩
  · rw [hbuffer, hlength, hmax]
  · omega
  · omega
  · omega
  · omega

theorem Fits.exchange (h : t.Fits total 0) (file : List UInt8) :
    (t.exchange file).1.Fits total 0 := by
  obtain ⟨hlength, hnonneg, hle, hroom, hge, hsize⟩ := h
  have hinit := initBufferSize_eq
  refine ⟨?_, le_rfl, Int.natCast_nonneg _, ?_, hge, hsize⟩
  · have hcleared : (List.replicate t.currentMaxSize.toNat (0 : UInt8) ++
        t.buffer.drop t.currentMaxSize.toNat).length = t.buffer.length := by
      rw [List.length_append, List.length_replicate, List.length_drop]
      omega
    simp only [Receiver.exchange]
    rw [length_sendLoop _ _ _ _ (by rw [hcleared]; omega), hcleared]
    exact hlength
  · change (0 : ℤ) + 0 ≤ t.currentMaxSize
    omega

theorem Fits.answered (h : t.Fits total 0) (readBytes : ℕ) (a : Answer) :
    (t.answered readBytes a).1.Fits total 0 := by
  unfold Receiver.answered
  split
  · exact h.exchange a.file
  · exact h

theorem Fits.noMore (h : t.Fits total 0) (readBytes : ℕ) : (t.noMore readBytes).Fits total 0 :=
  ⟨h.length_eq, h.nonneg, h.le_total, h.room_le, h.size_ge, h.size_le⟩

/-- `currentMaxSize *= 2` does not overflow, since the buffer is nearly full before it. -/
theorem Fits.double {room : ℤ} (h : t.Fits total room) (htotal : total < 2 ^ 29)
    (hfull : t.totalLen + initBufferSize > t.currentMaxSize) :
    int32 (t.currentMaxSize * 2) = t.currentMaxSize * 2 := by
  obtain ⟨_, _, hle, _, hge, _⟩ := h
  have hinit := initBufferSize_eq
  exact int32_of_range _ (by omega) (by omega)

/-- One doubling is enough, since a turn brings at most 100 bytes. -/
theorem Fits.grow (h : t.Fits total 0) (htotal : total < 2 ^ 29) (stale : ℕ → UInt8) :
    (t.grow stale).Fits total initBufferSize := by
  have hdouble := h.double htotal
  obtain ⟨hlength, hnonneg, hle, hroom, hge, hsize⟩ := h
  have hinit := initBufferSize_eq
  unfold Receiver.grow
  split
  · rename_i hfull
    simp only [hdouble hfull]
    refine ⟨?_, hnonneg, hle, ?_, ?_, ?_⟩
    · simp only [Heap.length_resize]
      omega
    · change t.totalLen + initBufferSize ≤ t.currentMaxSize * 2
      omega
    · change initBufferSize ≤ t.currentMaxSize * 2
      omega
    · change t.currentMaxSize * 2 ≤ _
      omega
  · exact ⟨hlength, hnonneg, hle, by omega, hge, hsize⟩

/-- Whatever is received, there is room for the next 100 bytes after the turn. -/
theorem Fits.turn (h : t.Fits total initBufferSize) (a : Answer)
    (htotal : total + a.size < 2 ^ 29) :
    (t.turn a).Fits (total + a.size) initBufferSize := by
  unfold Receiver.turn
  unfold Answer.size at htotal ⊢
  cases ha : a.received with
  | none => exact h
  | some piece =>
    rw [ha] at htotal
    exact (((h.receive piece htotal).2.answered _ a).noMore _).grow htotal a.stale

/-- All accesses of a turn are inside the buffer if one of the bytes it looks back at has
been received; otherwise `buffer[totalLen - 1]` is not. -/
theorem Fits.accesses_inside_iff (h : t.Fits total initBufferSize) (a : Answer)
    (htotal : total + a.size < 2 ^ 29) :
    (∀ access ∈ t.accesses a, access.Inside) ↔
      ∀ piece, a.received = some piece → 0 < t.totalLen + piece.bytes.length := by
  have hinit := initBufferSize_eq
  have hrecv : (t.access t.totalLen initBufferSize).Inside := by
    obtain ⟨hlength, hnonneg, _, hroom, _, _⟩ := h
    refine ⟨hnonneg, ?_⟩
    change t.totalLen + initBufferSize ≤ t.buffer.length
    omega
  unfold Receiver.accesses
  unfold Answer.size at htotal
  cases ha : a.received with
  | none => simp [hrecv]
  | some piece =>
    rw [ha] at htotal
    obtain ⟨hlen, hlength, hnonneg, _, hroom, _, _⟩ := h.receive piece htotal
    have hindex : ((t.receive piece).access ((t.receive piece).totalLen - 1) 1).Inside ↔
        0 < t.totalLen + piece.bytes.length := by
      unfold Access.Inside
      simp only [Receiver.access]
      omega
    constructor
    · intro hall piece' hpiece
      cases hpiece
      exact hindex.mp (hall _ (by simp))
    · intro hpos access haccess
      simp only [List.mem_cons] at haccess
      rcases haccess with rfl | rfl | hmem
      · exact hrecv
      · exact hindex.mpr (hpos piece rfl)
      · split at hmem
        · simp only [exchangeAccesses, List.mem_cons, List.not_mem_nil, or_false] at hmem
          rcases hmem with rfl | rfl | rfl
          all_goals
            unfold Access.Inside
            simp only [Receiver.access]
            omega
        · cases hmem

@[simp] theorem grow_totalLen (t : Receiver) (stale : ℕ → UInt8) :
    (t.grow stale).totalLen = t.totalLen := by
  unfold grow
  split <;> rfl

@[simp] theorem grow_isCompleted (t : Receiver) (stale : ℕ → UInt8) :
    (t.grow stale).isCompleted = t.isCompleted := by
  unfold grow
  split <;> rfl

@[simp] theorem grow_stored (t : Receiver) (stale : ℕ → UInt8) :
    (t.grow stale).stored = t.stored := by
  unfold grow
  split <;> rfl

@[simp] theorem grow_sent (t : Receiver) (stale : ℕ → UInt8) : (t.grow stale).sent = t.sent := by
  unfold grow
  split <;> rfl

/-- As long as the loop goes on, `totalLen` counts all bytes received. -/
theorem Fits.turn_totalLen (h : t.Fits total initBufferSize) (a : Answer)
    (htotal : total + a.size < 2 ^ 29) (hopen : (t.turn a).isCompleted = false) :
    (t.turn a).totalLen = t.totalLen + a.size := by
  unfold Receiver.turn at hopen ⊢
  unfold Answer.size at htotal ⊢
  cases ha : a.received with
  | none => exact (add_zero _).symm
  | some piece =>
    rw [ha] at htotal hopen
    simp only at hopen ⊢
    rw [grow_isCompleted, Receiver.noMore, Bool.or_eq_false_iff] at hopen
    rw [grow_totalLen]
    change ((t.receive piece).answered piece.bytes.length a).1.totalLen = _
    unfold Receiver.answered at hopen ⊢
    split at hopen
    · cases hopen.1
    · rename_i hlast
      rw [if_neg hlast]
      exact (h.receive piece htotal).1

/-- A piece is put behind the bytes that are already there. -/
theorem Fits.receive_package (h : t.Fits total initBufferSize) (piece : Piece)
    (htotal : total + piece.bytes.length < 2 ^ 29) :
    (t.receive piece).package = t.package ++ piece.bytes := by
  have hinit := initBufferSize_eq
  have hcount := (h.receive piece htotal).1
  obtain ⟨hlength, hnonneg, _, hroom, _, _⟩ := h
  have hfront : (t.buffer.take t.totalLen.toNat ++ piece.bytes).length =
      t.totalLen.toNat + piece.bytes.length := by
    rw [List.length_append, List.length_take]
    omega
  have hlen : (t.receive piece).totalLen.toNat = t.totalLen.toNat + piece.bytes.length := by
    omega
  rw [package, hlen, ← hfront]
  exact List.take_left

theorem Fits.grow_package (h : t.Fits total 0) (htotal : total < 2 ^ 29) (stale : ℕ → UInt8) :
    (t.grow stale).package = t.package := by
  have hdouble := h.double htotal
  obtain ⟨hlength, hnonneg, _, hroom, hge, hsize⟩ := h
  have hinit := initBufferSize_eq
  rw [package, grow_totalLen]
  unfold Receiver.grow
  split
  · rename_i hfull
    simp only [hdouble hfull]
    exact Heap.take_resize _ _ _ stale (by omega) (by omega)
  · rfl

/-- The client gets what was in the file, and its own package behind it. -/
theorem Fits.exchange_sent (h : t.Fits total 0) (file : List UInt8) :
    (t.exchange file).1.sent = t.sent ++ (file ++ t.package) := by
  have hge := h.size_ge
  have hinit := initBufferSize_eq
  change t.sent ++ (sendLoop _ _ _ _).2.1 = _
  rw [sendLoop_sent _ _ _ _ (by omega) (Nat.lt_succ_self _)]

end Receiver

end Aesd.ThreadFunc
