import Aesd.RingHistory
import Aesd.Segments
import Aesd.Words

/-!
The circular buffer of aesd-circular-buffer.c: ten entries, the two offsets and
the full flag. Storing an entry is one step of a ring, so everything about the
order of the entries is read off the list of all entries stored so far.
-/
namespace Aesd

/-- `AESDCHAR_MAX_WRITE_OPERATIONS_SUPPORTED` -/
abbrev maxWriteOperationsSupported : ℕ := 10

/-- `struct aesd_buffer_entry`; the pointer is a heap block or `NULL`. -/
structure BufferEntry where
  buffptr : Option ℕ
  size : ℕ
  deriving DecidableEq, Repr

namespace BufferEntry

/-- What `memset` leaves in an entry. -/
def zero : BufferEntry := ⟨none, 0⟩

end BufferEntry

/-- `struct aesd_circular_buffer` -/
structure CircularBuffer where
  entry : Vector BufferEntry maxWriteOperationsSupported
  inOffs : ℕ
  outOffs : ℕ
  full : Bool
  deriving DecidableEq, Repr

namespace CircularBuffer

open RingHistory Segments

def init : CircularBuffer :=
  ⟨Vector.replicate maxWriteOperationsSupported .zero, 0, 0, false⟩

/-- `buffer->entry[i]`, for an index inside the array. -/
def slot (buffer : CircularBuffer) (i : ℕ) : BufferEntry :=
  buffer.entry[i]?.getD .zero

/-- The new buffer and the pointer to be freed by the caller. -/
def addEntry (buffer : CircularBuffer) (entry : BufferEntry) :
    CircularBuffer × Option ℕ :=
  let outOffs := if buffer.full then (buffer.outOffs + 1) % maxWriteOperationsSupported
    else buffer.outOffs
  let pointerToFree := if buffer.full then (buffer.slot buffer.inOffs).buffptr else none
  let inOffs := (buffer.inOffs + 1) % maxWriteOperationsSupported
  ({ entry := buffer.entry.setIfInBounds buffer.inOffs entry
     inOffs := inOffs
     outOffs := outOffs
     full := buffer.full || decide (inOffs = outOffs) }, pointerToFree)

/-- The offset stored for the caller: 64-bit differences, cut to 16 bits. -/
def lastIndex (charOffset totalSz size : ℕ) : ℕ :=
  uint16 (sizeT (charOffset - sizeT (totalSz - size)))

/-- The lookup loop, with a bound on its iterations; `none` when the bound is
reached. The inner loop of the source only moves a pointer that is never used. -/
def findLoop (buffer : CircularBuffer) (charOffset : ℕ) :
    ℕ → ℕ → ℕ → Bool → Option (Option (ℕ × ℕ))
  | 0, _, _, _ => none
  | fuel + 1, bufferTotalSz, bufferIdx, isfull =>
      if bufferIdx ≠ buffer.inOffs ∨ isfull = true then
        let size := (buffer.slot bufferIdx).size
        let totalSz := uint32 (bufferTotalSz + size)
        if totalSz > charOffset then
          some (some (bufferIdx, lastIndex charOffset totalSz size))
        else
          findLoop buffer charOffset fuel totalSz
            ((bufferIdx + 1) % maxWriteOperationsSupported) false
      else some none

/-- The index of the returned entry and the offset in it, or `NULL`. -/
def findEntryOffsetForFpos (buffer : CircularBuffer) (charOffset : ℕ) :
    Option (Option (ℕ × ℕ)) :=
  findLoop buffer charOffset (maxWriteOperationsSupported + 1) 0 buffer.outOffs buffer.full

/-- The loop of `aesd_circular_buffer_size` over the slots still to be visited: it
stops at the first `NULL`. -/
def sizeLoop (buffer : CircularBuffer) : ℕ → List ℕ → ℕ
  | totalBytes, [] => totalBytes
  | totalBytes, index :: rest =>
      if (buffer.slot index).buffptr = none then totalBytes
      else buffer.sizeLoop (sizeT (totalBytes + (buffer.slot index).size)) rest

def size (buffer : CircularBuffer) : ℕ :=
  buffer.sizeLoop 0 (List.range maxWriteOperationsSupported)

/-- Number of entries between the two offsets. -/
def liveCount (buffer : CircularBuffer) : ℕ :=
  occupied maxWriteOperationsSupported buffer.inOffs buffer.outOffs buffer.full

/-- The live entries, oldest first. -/
def live (buffer : CircularBuffer) : List BufferEntry :=
  window maxWriteOperationsSupported buffer.slot buffer.outOffs buffer.liveCount

/-- Storing entries one after the other, with the pointers handed back. -/
def addEntries (buffer : CircularBuffer) : List BufferEntry → CircularBuffer × List (Option ℕ)
  | [] => (buffer, [])
  | e :: rest =>
      let next := buffer.addEntry e
      let final := next.1.addEntries rest
      (final.1, next.2 :: final.2)

/-- The buffer is the one reached by storing `es`. -/
def Tracks (buffer : CircularBuffer) (es : List BufferEntry) : Prop :=
  RingHistory.Tracks maxWriteOperationsSupported .zero buffer.slot buffer.inOffs
    buffer.outOffs buffer.full es

theorem slot_init (i : ℕ) : init.slot i = .zero := by
  unfold slot init
  by_cases hi : i < maxWriteOperationsSupported
  · rw [Vector.getElem?_eq_getElem hi, Vector.getElem_replicate, Option.getD_some]
  · rw [Vector.getElem?_eq_none (Nat.le_of_not_lt hi), Option.getD_none]

theorem tracks_init : init.Tracks [] := by
  have hslot : init.slot = fun _ => .zero := funext slot_init
  unfold Tracks
  rw [hslot]
  exact tracks_nil maxWriteOperationsSupported BufferEntry.zero (by decide)

theorem slot_addEntry (buffer : CircularBuffer) (entry : BufferEntry)
    (hin : buffer.inOffs < maxWriteOperationsSupported) :
    (buffer.addEntry entry).1.slot = Function.update buffer.slot buffer.inOffs entry := by
  funext i
  change ((buffer.entry.setIfInBounds buffer.inOffs entry)[i]?).getD BufferEntry.zero = _
  by_cases hi : i = buffer.inOffs
  · subst hi
    rw [Vector.getElem?_setIfInBounds_self_of_lt hin, Function.update_self, Option.getD_some]
  · rw [Vector.getElem?_setIfInBounds_ne (Ne.symm hi), Function.update_of_ne hi]
    rfl

namespace Tracks

variable {buffer : CircularBuffer} {es : List BufferEntry}

theorem inOffs_lt (h : buffer.Tracks es) : buffer.inOffs < maxWriteOperationsSupported :=
  h.in_lt (by decide)

theorem outOffs_lt (h : buffer.Tracks es) : buffer.outOffs < maxWriteOperationsSupported :=
  h.out_lt (by decide)

theorem addEntry (h : buffer.Tracks es) (e : BufferEntry) :
    (buffer.addEntry e).1.Tracks (es ++ [e]) := by
  have hpush := h.push e
  rw [← slot_addEntry buffer e h.inOffs_lt] at hpush
  exact hpush

/-- The pointer handed back is that of the entry ten calls earlier. -/
theorem addEntry_snd (h : buffer.Tracks es) (e : BufferEntry) :
    (buffer.addEntry e).2 = if es.length < maxWriteOperationsSupported then none
      else (es[es.length - maxWriteOperationsSupported]?).bind BufferEntry.buffptr := by
  change (if buffer.full then (buffer.slot buffer.inOffs).buffptr else none) = _
  by_cases hfull : buffer.full = true
  · have hge : maxWriteOperationsSupported ≤ es.length := h.full_iff.mp hfull
    have hlt : es.length - maxWriteOperationsSupported < es.length :=
      Nat.sub_lt (Nat.lt_of_lt_of_le (by decide) hge) (by decide)
    rw [if_pos hfull, if_neg (Nat.not_lt.mpr hge), h.oldest (by decide) hge,
      List.getElem?_eq_getElem hlt, Option.bind_some]
  · have hlt : es.length < maxWriteOperationsSupported := by
      by_contra hge
      exact hfull (h.full_iff.mpr (by omega))
    rw [if_neg hfull, if_pos hlt]

theorem liveCount_eq (h : buffer.Tracks es) :
    buffer.liveCount = min es.length maxWriteOperationsSupported :=
  h.occupied_eq (by decide)

/-- The live entries are those in the first slots, whatever the rotation. -/
theorem live_perm (h : buffer.Tracks es) :
    buffer.live.Perm ((List.range buffer.liveCount).map buffer.slot) := by
  unfold live
  rw [h.liveCount_eq]
  exact h.window_perm

theorem live_eq (h : buffer.Tracks es) : buffer.live = es.rtake maxWriteOperationsSupported := by
  unfold live
  rw [h.liveCount_eq]
  exact h.window_eq

end Tracks

theorem addEntries_concat (buffer : CircularBuffer) (es : List BufferEntry) (e : BufferEntry) :
    buffer.addEntries (es ++ [e]) =
      (((buffer.addEntries es).1.addEntry e).1,
        (buffer.addEntries es).2 ++ [((buffer.addEntries es).1.addEntry e).2]) := by
  induction es generalizing buffer with
  | nil => rfl
  | cons f rest ih => simp only [List.cons_append, addEntries, ih]

theorem length_addEntries (buffer : CircularBuffer) (es : List BufferEntry) :
    (buffer.addEntries es).2.length = es.length := by
  induction es generalizing buffer with
  | nil => rfl
  | cons e rest ih => simp [addEntries, ih]

theorem tracks_addEntries (es : List BufferEntry) : (init.addEntries es).1.Tracks es := by
  induction es using List.reverseRecOn with
  | nil => exact tracks_init
  | append_singleton es e ih =>
    rw [addEntries_concat]
    exact ih.addEntry e

theorem addEntries_returns (es : List BufferEntry) (k : ℕ) (hk : k < es.length) :
    (init.addEntries es).2[k]? =
      some ((init.addEntries (es.take k)).1.addEntry es[k]).2 := by
  induction es using List.reverseRecOn with
  | nil => simp at hk
  | append_singleton es e ih =>
    rw [addEntries_concat]
    by_cases hlast : k < es.length
    · rw [List.getElem?_append_left (by rw [length_addEntries]; exact hlast), ih hlast,
        List.take_append_of_le_length hlast.le, List.getElem_append_left hlast]
    · have hk' : k = es.length := by
        simp at hk
        omega
      subst hk'
      rw [List.getElem?_append_right (by rw [length_addEntries]), length_addEntries]
      simp

/-- Call `k` hands back the pointer of the entry it overwrites, the one of call
`k - 10`, and nothing while the ten slots are still being filled. -/
theorem addEntries_evicts (es : List BufferEntry) (k : ℕ) (hk : k < es.length) :
    (init.addEntries es).2[k]? = some (if k < 10 then none else es[k - 10].buffptr) ∧
      (10 ≤ k → (init.addEntries (es.take k)).1.slot (init.addEntries (es.take k)).1.inOffs =
        es[k - 10]) := by
  have hlen : (es.take k).length = k := by
    rw [List.length_take]
    omega
  have htracks := tracks_addEntries (es.take k)
  constructor
  · rw [addEntries_returns es k hk, htracks.addEntry_snd, hlen]
    by_cases hk10 : k < 10
    · rw [if_pos hk10, if_pos hk10]
    · rw [if_neg hk10, if_neg hk10, List.getElem?_take_of_lt (show k - 10 < k by omega),
        List.getElem?_eq_getElem (show k - 10 < es.length by omega), Option.bind_some]
  · intro hge
    rw [htracks.oldest (by decide) (by rw [hlen]; exact hge)]
    simp [hlen]

/-- The buffer is a bounded first-in first-out queue of ten entries. -/
theorem addEntries_refines_fifo (es : List BufferEntry) :
    ((init.addEntries es).1.inOffs < 10 ∧ (init.addEntries es).1.outOffs < 10 ∧
      ((init.addEntries es).1.full = true ↔ 10 ≤ es.length) ∧
      ((init.addEntries es).1.inOffs = (init.addEntries es).1.outOffs ↔
        es.length = 0 ∨ (init.addEntries es).1.full = true)) ∧
    ((List.range (min es.length 10)).map (fun i =>
        (init.addEntries es).1.slot (((init.addEntries es).1.outOffs + i) % 10)) =
      es.drop (es.length - min es.length 10)) ∧
    ∀ k (hk : k < es.length),
      (init.addEntries es).2[k]? = some (if k < 10 then none else es[k - 10].buffptr) ∧
      (10 ≤ k →
        (init.addEntries (es.take k)).1.slot (init.addEntries (es.take k)).1.inOffs =
          es[k - 10] ∧
        (init.addEntries (es.take (k + 1))).1.slot (init.addEntries (es.take k)).1.inOffs =
          es[k]) := by
  have htracks := tracks_addEntries es
  refine ⟨⟨htracks.inOffs_lt, htracks.outOffs_lt, htracks.full_iff, ?_⟩, ?_, ?_⟩
  · rw [List.length_eq_zero_iff]
    exact htracks.in_eq_out_iff
  · have hdrop : es.length - min es.length 10 = es.length - 10 := by omega
    rw [hdrop]
    exact htracks.window_eq
  · intro k hk
    obtain ⟨hret, hold⟩ := addEntries_evicts es k hk
    refine ⟨hret, fun hge => ⟨hold hge, ?_⟩⟩
    rw [List.take_succ_eq_append_getElem hk, addEntries_concat,
      slot_addEntry _ _ (tracks_addEntries (es.take k)).inOffs_lt, Function.update_self]

end CircularBuffer

end Aesd
