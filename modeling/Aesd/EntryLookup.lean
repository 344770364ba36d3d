import Aesd.CircularBuffer

/-!
The lookup of a file position. For offsets inside the array the loop visits the
live entries once each, oldest first, whatever the rotation and the flag; the
sums it makes on the way are then a matter of the list of sizes alone.
-/
namespace Aesd.CircularBuffer

open RingHistory Segments

/-- The sums and comparisons of the lookup loop on the sizes of the entries it
visits: the number of the entry it stops at and the stored offset. -/
def walk (charOffset : ℕ) : ℕ → List ℕ → Option (ℕ × ℕ)
  | _, [] => none
  | totalSz, size :: rest =>
      if uint32 (totalSz + size) > charOffset then
        some (0, lastIndex charOffset (uint32 (totalSz + size)) size)
      else (walk charOffset (uint32 (totalSz + size)) rest).map (fun q => (q.1 + 1, q.2))

/-- The sizes of the live entries, oldest first. -/
def liveSizes (buffer : CircularBuffer) : List ℕ := buffer.live.map BufferEntry.size

theorem length_live (buffer : CircularBuffer) : buffer.live.length = buffer.liveCount := by
  simp [live]

theorem getElem_live (buffer : CircularBuffer) (i : ℕ) (h : i < buffer.live.length) :
    buffer.live[i] = buffer.slot ((buffer.outOffs + i) % maxWriteOperationsSupported) := by
  unfold live
  exact getElem_window ..

theorem length_liveSizes (buffer : CircularBuffer) :
    buffer.liveSizes.length = buffer.liveCount := by
  rw [liveSizes, List.length_map, length_live]

/-- The sizes can be added up by place as well as by age. -/
theorem Tracks.sum_slots {buffer : CircularBuffer} {es : List BufferEntry}
    (h : buffer.Tracks es) :
    ((List.range buffer.liveCount).map (fun i => (buffer.slot i).size)).sum =
      buffer.liveSizes.sum := by
  have hperm := (h.live_perm.map BufferEntry.size).sum_eq
  rw [List.map_map] at hperm
  exact hperm.symm

/-- The loop goes on exactly while a live entry is left. On the first turn the
flag alone keeps a full ring apart from an empty one. -/
theorem loop_guard (buffer : CircularBuffer) (i : ℕ)
    (hin : buffer.inOffs < 10) (hout : buffer.outOffs < 10) (hi : i ≤ buffer.liveCount) :
    ((buffer.outOffs + i) % 10 ≠ buffer.inOffs ∨
      (decide (i = 0) && buffer.full) = true) ↔ i < buffer.liveCount := by
  have hcount : buffer.liveCount = if buffer.inOffs = buffer.outOffs then
      (if buffer.full then 10 else 0) else (buffer.inOffs + 10 - buffer.outOffs) % 10 := rfl
  by_cases hmeet : buffer.inOffs = buffer.outOffs
  · rw [if_pos hmeet] at hcount
    cases hfull : buffer.full with
    | false =>
      rw [hfull, if_neg Bool.false_ne_true] at hcount
      rw [Bool.and_false]
      simp only [Bool.false_eq_true, or_false]
      omega
    | true =>
      rw [hfull, if_pos rfl] at hcount
      rw [Bool.and_true, decide_eq_true_eq]
      omega
  · rw [if_neg hmeet] at hcount
    have hfirst : (decide (i = 0) && buffer.full) = true → i = 0 := by
      intro h
      exact of_decide_eq_true (Bool.and_eq_true_iff.mp h).1
    constructor
    · rintro (hne | hflag)
      · omega
      · have := hfirst hflag
        omega
    · intro hlt
      left
      omega

private theorem findLoop_eq_walk (buffer : CircularBuffer) (charOffset : ℕ)
    (hin : buffer.inOffs < 10) (hout : buffer.outOffs < 10) (left : ℕ) :
    ∀ i fuel totalSz, i + left = buffer.liveCount → left < fuel →
      buffer.findLoop charOffset fuel totalSz ((buffer.outOffs + i) % 10)
          (decide (i = 0) && buffer.full) =
        some ((walk charOffset totalSz (buffer.liveSizes.drop i)).map
          (fun q => ((buffer.outOffs + (i + q.1)) % 10, q.2))) := by
  induction left with
  | zero =>
    intro i fuel totalSz hi hfuel
    obtain ⟨fuel, rfl⟩ : ∃ m, fuel = m + 1 := ⟨fuel - 1, by omega⟩
    have hguard := loop_guard buffer i hin hout (by omega)
    have hdrop : buffer.liveSizes.drop i = [] :=
      List.drop_eq_nil_of_le (by rw [length_liveSizes]; omega)
    rw [findLoop, if_neg (by rw [hguard]; omega), hdrop]
    rfl
  | succ left ih =>
    intro i fuel totalSz hi hfuel
    obtain ⟨fuel, rfl⟩ : ∃ m, fuel = m + 1 := ⟨fuel - 1, by omega⟩
    have hguard := loop_guard buffer i hin hout (by omega)
    have hlt : i < buffer.liveSizes.length := by rw [length_liveSizes]; omega
    have hsize : buffer.liveSizes[i] = (buffer.slot ((buffer.outOffs + i) % 10)).size := by
      simp only [liveSizes, List.getElem_map, getElem_live]
    have hnext : ((buffer.outOffs + i) % 10 + 1) % maxWriteOperationsSupported =
        (buffer.outOffs + (i + 1)) % 10 := by
      rw [Nat.mod_add_mod, Nat.add_assoc]
    have hflag : (decide (i + 1 = 0) && buffer.full) = false := by simp
    have hrec := ih (i + 1) fuel
      (uint32 (totalSz + (buffer.slot ((buffer.outOffs + i) % 10)).size)) (by omega) (by omega)
    rw [hflag] at hrec
    rw [findLoop, if_pos (hguard.mpr (by omega)), List.drop_eq_getElem_cons hlt, walk, hsize,
      hnext]
    simp only [hrec]
    split
    · simp
    · rw [Option.map_map]
      congr 2
      funext q
      simp only [Function.comp_apply]
      rw [show i + 1 + q.1 = i + (q.1 + 1) by omega]

/-- For offsets inside the array the lookup ends, and its result is that of
the walk over the live sizes, counted from `outOffs`. -/
theorem findEntryOffsetForFpos_eq_walk (buffer : CircularBuffer) (charOffset : ℕ)
    (hin : buffer.inOffs < 10) (hout : buffer.outOffs < 10) :
    buffer.findEntryOffsetForFpos charOffset =
      some ((walk charOffset 0 buffer.liveSizes).map
        (fun q => ((buffer.outOffs + q.1) % 10, q.2))) := by
  have hcount : buffer.liveCount ≤ 10 := by
    unfold liveCount occupied
    split
    · split <;> decide
    · exact (Nat.mod_lt _ (by decide)).le
  have hloop := findLoop_eq_walk buffer charOffset hin hout buffer.liveCount 0
    (maxWriteOperationsSupported + 1) 0 (by omega) (Nat.lt_succ_of_le hcount)
  simpa [findEntryOffsetForFpos, Nat.mod_eq_of_lt hout] using hloop

/-- The stored offset is exact when the sums fit in 32 bits and the distance
into the entry fits in 16 bits. -/
theorem lastIndex_exact (charOffset before size : ℕ) (hle : before ≤ charOffset)
    (htotal : before + size < 2 ^ 32) (hoff : charOffset - before < 2 ^ 16) :
    lastIndex charOffset (uint32 (before + size)) size = charOffset - before := by
  have h32 : uint32 ((before : ℤ) + size) = before + size := by
    have := uint32_of_lt (before + size) htotal
    simpa using this
  rw [h32]
  unfold lastIndex uint16 sizeT
  omega

/-- The machine sums are exact for this position: every entry that the walk
visits keeps the running total below 2^32, and the distance into the entry that
it stops at is below 2^16. -/
structure WalkFits (sizes : List ℕ) (charOffset : ℕ) : Prop where
  total_lt : ∀ i < sizes.length, (sizes.take i).sum ≤ charOffset →
    (sizes.take (i + 1)).sum < 2 ^ 32
  offset_lt : ∀ i o, locate sizes charOffset = some (i, o) → o < 2 ^ 16

private theorem walk_from (charOffset before : ℕ) (sizes : List ℕ) (hle : before ≤ charOffset)
    (htotal : ∀ i < sizes.length, before + (sizes.take i).sum ≤ charOffset →
      before + (sizes.take (i + 1)).sum < 2 ^ 32)
    (hoff : ∀ i o, locate sizes (charOffset - before) = some (i, o) → o < 2 ^ 16) :
    walk charOffset before sizes = locate sizes (charOffset - before) := by
  induction sizes generalizing before with
  | nil => rfl
  | cons size rest ih =>
    have hfirst : before + size < 2 ^ 32 := by
      simpa using htotal 0 (by simp) (by simpa using hle)
    have h32 : uint32 ((before : ℤ) + size) = before + size := by
      have := uint32_of_lt (before + size) hfirst
      simpa using this
    rw [walk, locate, h32]
    by_cases hlt : charOffset < before + size
    · have hsmall : charOffset - before < 2 ^ 16 := by
        apply hoff 0 (charOffset - before)
        simp only [locate]
        rw [if_pos (by omega)]
      have hlast := lastIndex_exact charOffset before size hle hfirst hsmall
      rw [h32] at hlast
      rw [if_pos hlt, if_pos (by omega), hlast]
    · have hrest := ih (before + size) (by omega)
        (fun i hi hvisit => by
          have := htotal (i + 1) (by simpa using hi)
          simp only [List.take_succ_cons, List.sum_cons] at this
          omega)
        (fun i o hloc => by
          apply hoff (i + 1) o
          simp only [locate]
          rw [if_neg (by omega), Nat.sub_sub, hloc]
          rfl)
      rw [if_neg hlt, if_neg (by omega), hrest, Nat.sub_sub]

/-- Where the machine sums are exact, the walk finds the position exactly. -/
theorem walk_eq_locate (sizes : List ℕ) (charOffset : ℕ) (h : WalkFits sizes charOffset) :
    walk charOffset 0 sizes = locate sizes charOffset := by
  apply walk_from charOffset 0 sizes (Nat.zero_le _)
  · simpa using h.total_lt
  · simpa using h.offset_lt

/-- Entries of at most 65536 bytes with a total below 2^32 fit at every position. -/
theorem walkFits_of_small (sizes : List ℕ) (charOffset : ℕ) (htotal : sizes.sum < 2 ^ 32)
    (hsizes : ∀ n ∈ sizes, n ≤ 2 ^ 16) : WalkFits sizes charOffset where
  total_lt i hi _ := by
    have hsum := List.sum_take_add_sum_drop sizes (i + 1)
    omega
  offset_lt i o hloc := by
    obtain ⟨hi, ho, _⟩ := (locate_eq_some_iff _ _ _ _).mp hloc
    have hsize := hsizes _ (List.getElem_mem hi)
    omega

end Aesd.CircularBuffer
