import Aesd.LookupWidths

/-!
The size of the content by the physical slots. The walk goes over the array from slot
0 and stops at the first `NULL`, while the lookup goes over the ring from the read
offset. The slots with a pointer are always the first ones of the array, so both visit
the same entries.
-/
namespace Aesd.CircularBuffer

/-- Over slots that all have a pointer the loop adds up their sizes. -/
theorem sizeLoop_append (buffer : CircularBuffer) (totalBytes : ℕ) (slots rest : List ℕ)
    (hptr : ∀ i ∈ slots, (buffer.slot i).buffptr ≠ none)
    (hlt : totalBytes + (slots.map (fun i => (buffer.slot i).size)).sum < 2 ^ 64) :
    buffer.sizeLoop totalBytes (slots ++ rest) =
      buffer.sizeLoop (totalBytes + (slots.map (fun i => (buffer.slot i).size)).sum) rest := by
  induction slots generalizing totalBytes with
  | nil => rfl
  | cons i slots ih =>
    rw [List.map_cons, List.sum_cons, ← Nat.add_assoc] at hlt ⊢
    have hsize : sizeT ((totalBytes : ℤ) + (buffer.slot i).size) =
        totalBytes + (buffer.slot i).size := by
      have := sizeT_of_lt (totalBytes + (buffer.slot i).size) (by omega)
      simpa using this
    rw [List.cons_append, sizeLoop, if_neg (hptr i (by simp)), hsize,
      ih _ (fun j hj => hptr j (by simp [hj])) hlt]

/-- The loop does not go past a `NULL`. -/
theorem sizeLoop_of_null (buffer : CircularBuffer) (totalBytes : ℕ) (slots : List ℕ)
    (hnull : ∀ i ∈ slots, (buffer.slot i).buffptr = none) :
    buffer.sizeLoop totalBytes slots = totalBytes := by
  cases slots with
  | nil => rfl
  | cons i rest => rw [sizeLoop, if_pos (hnull i (by simp))]

/-- The first slots have a pointer, as many as there are live entries, and no other. -/
theorem Tracks.slot_null_iff {buffer : CircularBuffer} {es : List BufferEntry}
    (h : buffer.Tracks es) (hptr : ∀ e ∈ es, e.buffptr ≠ none) (i : ℕ)
    (hi : i < maxWriteOperationsSupported) :
    (buffer.slot i).buffptr = none ↔ buffer.liveCount ≤ i := by
  rw [h.liveCount_eq]
  constructor
  · intro hnull
    by_contra hlt
    obtain ⟨k, hk, _, _, hslot⟩ := h.exists_stored i hi (by omega)
    rw [hslot] at hnull
    exact hptr _ (List.getElem_mem hk) hnull
  · intro hle
    rw [h.untouched i (by omega) hi]
    rfl

/-- The walk over the array adds up the live entries. -/
theorem Tracks.size_eq {buffer : CircularBuffer} {es : List BufferEntry}
    (h : buffer.Tracks es) (hptr : ∀ e ∈ es, e.buffptr ≠ none)
    (hlt : buffer.liveSizes.sum < 2 ^ 64) : buffer.size = buffer.liveSizes.sum := by
  have hcount : buffer.liveCount ≤ maxWriteOperationsSupported := by
    rw [h.liveCount_eq]
    omega
  have hsplit : List.range maxWriteOperationsSupported = List.range buffer.liveCount ++
      (List.range (maxWriteOperationsSupported - buffer.liveCount)).map
        (fun i => buffer.liveCount + i) := by
    rw [← List.range_add, Nat.add_sub_cancel' hcount]
  have hsum := h.sum_slots
  unfold size
  rw [hsplit, sizeLoop_append, Nat.zero_add, sizeLoop_of_null, hsum]
  · intro i hi
    obtain ⟨j, hj, rfl⟩ := List.mem_map.mp hi
    rw [List.mem_range] at hj
    exact (h.slot_null_iff hptr _ (by omega)).mpr (Nat.le_add_right _ _)
  · intro i hi
    rw [List.mem_range] at hi
    rw [Ne, h.slot_null_iff hptr i (by omega)]
    omega
  · omega

/-- The two traversals agree on every ring filled with entries that have a pointer:
the size is the total of the live entries, and the lookup fails exactly from there on. -/
theorem size_agrees_with_lookup (es : List BufferEntry) (hptr : ∀ e ∈ es, e.buffptr ≠ none)
    (htotal : (init.addEntries es).1.liveSizes.sum < 2 ^ 32) :
    (init.addEntries es).1.size = (init.addEntries es).1.liveSizes.sum ∧
      ∀ charOffset, (init.addEntries es).1.findEntryOffsetForFpos charOffset = some none ↔
        (init.addEntries es).1.size ≤ charOffset := by
  have htracks := tracks_addEntries es
  have hsize := htracks.size_eq hptr (by omega)
  refine ⟨hsize, ?_⟩
  intro charOffset
  rw [find_eq_mod _ charOffset htracks.inOffs_lt htracks.outOffs_lt htotal, hsize,
    Option.some.injEq, Option.map_eq_none_iff, Segments.locate_eq_none_iff]

/-- Twelve entries of one byte, the ring is full and has been rotated by two. -/
theorem size_agrees_rotated :
    (init.addEntries (List.replicate 12 ⟨some 0, 1⟩)).1.size = 10 ∧
      (init.addEntries (List.replicate 12 ⟨some 0, 1⟩)).1.findEntryOffsetForFpos 10 =
        some none := by
  obtain ⟨hsize, hnull⟩ := size_agrees_with_lookup (List.replicate 12 ⟨some 0, 1⟩)
    (by decide) (by decide)
  have hten : (init.addEntries (List.replicate 12 ⟨some 0, 1⟩)).1.size = 10 := by
    rw [hsize]
    decide
  exact ⟨hten, (hnull 10).mpr hten.le⟩

end Aesd.CircularBuffer
