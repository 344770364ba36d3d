import Aesd.ReadDrain

/-!
Seeking to a command. The check and the sum of `aesd_adjust_file_offset` go over
the slots by their place in the array, while reads go over the live entries by
age. The two agree as long as the oldest command is in slot 0, and after that
only if the sizes happen to line up.
-/
namespace Aesd.Driver

open Segments

/-- The exact sum of the sizes in the slots before `c`. -/
def slotSum (buffer : CircularBuffer) (c : ℕ) : ℕ :=
  ((List.range c).map (fun i => (buffer.slot i).size)).sum

theorem slotSum_succ (buffer : CircularBuffer) (c : ℕ) :
    slotSum buffer (c + 1) = slotSum buffer c + (buffer.slot c).size := by
  simp [slotSum, List.range_succ]

theorem slotSum_mono (buffer : CircularBuffer) {c d : ℕ} (h : c ≤ d) :
    slotSum buffer c ≤ slotSum buffer d := by
  induction d, h using Nat.le_induction with
  | base => exact Nat.le_refl _
  | succ d _ ih =>
    rw [slotSum_succ]
    omega

/-- The `long` holds the exact sum as long as it fits. -/
theorem sumSlots_eq (buffer : CircularBuffer) (c : ℕ) (h : slotSum buffer c < 2 ^ 63) :
    sumSlots buffer c = slotSum buffer c := by
  induction c with
  | zero => rfl
  | succ c ih =>
    rw [slotSum_succ] at h ⊢
    rw [sumSlots, ih (by omega), loffT_of_range _ (by omega) (by omega)]
    omega

theorem aesdIoctl_seekto (dev : Dev) (fPos : ℤ) (seekto : Seekto) (interrupted : Bool) :
    aesdIoctl dev fPos iocSeekto (some seekto) interrupted =
      aesdAdjustFileOffset dev fPos interrupted seekto := by
  rw [aesdIoctl, if_neg (by decide), if_neg (by decide), if_pos rfl]

/-- A granted seek: refused on the size of the slot with that number, otherwise set to
the sum over the slots before it. -/
theorem adjust_eq (dev : Dev) (fPos : ℤ) (seekto : Seekto) (hc : seekto.writeCmd < 10)
    (hlt : slotSum dev.circularBuffer seekto.writeCmd < 2 ^ 62) :
    aesdAdjustFileOffset dev fPos false seekto =
      if seekto.writeCmdOffset ≤ (dev.circularBuffer.slot seekto.writeCmd).size then
        ⟨(slotSum dev.circularBuffer seekto.writeCmd + seekto.writeCmdOffset : ℕ), 0⟩
      else ⟨fPos, -EINVAL⟩ := by
  have hoff := seekto.writeCmdOffset_lt
  rw [aesdAdjustFileOffset, if_neg Bool.false_ne_true]
  by_cases hin : seekto.writeCmdOffset ≤ (dev.circularBuffer.slot seekto.writeCmd).size
  · rw [if_neg (by rw [maxWriteOperationsSupported]; omega), if_pos hin,
      sumSlots_eq _ _ (by omega), loffT_of_range _ (by omega) (by omega)]
    rfl
  · rw [if_pos (by omega), if_neg hin]

/-- Each slot below the number of live commands is live. -/
theorem Holds.slot_live {k : Kernel} {es : List BufferEntry} {cmds : List (List UInt8)}
    (h : Holds k es cmds) (i : ℕ) (hi : i < (cmds.rtake 10).length) :
    ∃ c ∈ cmds.rtake 10, Stored k.heap (k.dev.circularBuffer.slot i) c := by
  have hlen := h.length_eq
  rw [List.rtake, List.length_drop] at hi
  obtain ⟨j, hj, _, hnew, hslot⟩ :=
    h.tracks.exists_stored i (show i < 10 by omega) (by omega)
  have hten : es.length ≤ j + 10 := hnew
  rw [hslot]
  refine ⟨cmds[j], List.mem_drop_iff_getElem.mpr ⟨j - (cmds.length - 10), by omega, ?_⟩,
    h.stored j _ _ hnew (List.getElem?_eq_getElem hj) (List.getElem?_eq_getElem (by omega))⟩
  congr 1
  omega

/-- A slot behind the last live command is still zero. -/
theorem Holds.slot_unwritten {k : Kernel} {es : List BufferEntry} {cmds : List (List UInt8)}
    (h : Holds k es cmds) (i : ℕ) (hi : i < 10) (hdead : (cmds.rtake 10).length ≤ i) :
    (k.dev.circularBuffer.slot i).size = 0 := by
  have hlen := h.length_eq
  rw [List.rtake, List.length_drop] at hdead
  rw [h.tracks.untouched i (by omega) hi]
  rfl

/-- Over all live slots the order does not matter. -/
theorem Holds.slotSum_all {k : Kernel} {es : List BufferEntry} {cmds : List (List UInt8)}
    (h : Holds k es cmds) : slotSum k.dev.circularBuffer (cmds.rtake 10).length =
      (cmds.rtake 10).flatten.length := by
  have hshows := h.shows
  calc
    slotSum k.dev.circularBuffer (cmds.rtake 10).length =
        slotSum k.dev.circularBuffer k.dev.circularBuffer.liveCount := by rw [hshows.count_eq]
    _ = k.dev.circularBuffer.liveSizes.sum := h.tracks.sum_slots
    _ = (cmds.rtake 10).flatten.length := hshows.sum_liveSizes

/-- No sum over slots exceeds the content. -/
theorem Holds.slotSum_le {k : Kernel} {es : List BufferEntry} {cmds : List (List UInt8)}
    (h : Holds k es cmds) (c : ℕ) (hc : c ≤ 10) :
    slotSum k.dev.circularBuffer c ≤ (cmds.rtake 10).flatten.length := by
  have hall := h.slotSum_all
  induction c with
  | zero => exact Nat.zero_le _
  | succ c ih =>
    by_cases hlive : c < (cmds.rtake 10).length
    · exact hall ▸ slotSum_mono _ hlive
    · rw [slotSum_succ, h.slot_unwritten c (by omega) (by omega)]
      exact ih (by omega)

/-- The seek returns 0, and draining the file afterwards returns the bytes of
the command counted by age from the offset on, and then all newer commands. -/
def SeekWorks (k : Kernel) (cmds : List (List UInt8)) (fPos : ℤ) (seekto : Seekto) : Prop :=
  (aesdIoctl k.dev fPos iocSeekto (some seekto) false).retval = 0 ∧
    ∀ counts : List ℕ, (∀ count ∈ counts, 0 < count) →
      ∃ rs, drain k (aesdIoctl k.dev fPos iocSeekto (some seekto) false).fPos counts = some rs ∧
        (cmds.flatten.length < counts.length → ∃ r ∈ rs, r.retval = 0) ∧
        ((∃ r ∈ rs, r.retval = 0) → drained rs =
          (cmds.getD seekto.writeCmd []).drop seekto.writeCmdOffset ++
            (cmds.drop (seekto.writeCmd + 1)).flatten)

/-- The target exists: a live command, counted by age, and an offset inside it. -/
def ValidTarget (cmds : List (List UInt8)) (seekto : Seekto) : Prop :=
  seekto.writeCmd < cmds.length ∧
    seekto.writeCmdOffset < (cmds.getD seekto.writeCmd []).length

instance (cmds : List (List UInt8)) (seekto : Seekto) :
    Decidable (ValidTarget cmds seekto) := by
  unfold ValidTarget
  infer_instance

/-- The slots and the live commands have the same sizes, place by place. -/
def SlotsAligned (k : Kernel) (cmds : List (List UInt8)) : Prop :=
  ∀ i < cmds.length, (k.dev.circularBuffer.slot i).size = (cmds.getD i []).length

/-- A seek to the sum of the slots reads what it should just when that sum is
the position of the command. -/
private theorem drop_eq_iff (cmds : List (List UInt8)) (c o p : ℕ) (hc : c < cmds.length)
    (ho : o < (cmds.getD c []).length) :
    cmds.flatten.drop (p + o) = (cmds.getD c []).drop o ++ (cmds.drop (c + 1)).flatten ↔
      p = (cmds.take c).flatten.length := by
  rw [List.getD_eq_getElem _ _ hc] at ho ⊢
  rw [← drop_flatten cmds c o hc ho.le, ← flatten_take_length]
  constructor
  · intro heq
    have hle := take_sum_add_le (cmds.map List.length) c (by simpa using hc)
    have hlen := congrArg List.length heq
    rw [List.getElem_map, ← flatten_take_length, ← List.length_flatten] at hle
    rw [List.length_drop, List.length_drop] at hlen
    omega
  · rintro rfl
    rfl

section Targets

variable {k : Kernel} {es : List BufferEntry} {all : List (List UInt8)}

theorem Holds.seekWorks_iff (h : Holds k es all) (hsmall : Small (all.rtake 10)) (fPos : ℤ)
    (seekto : Seekto) (hvalid : ValidTarget (all.rtake 10) seekto) :
    SeekWorks k (all.rtake 10) fPos seekto ↔
      seekto.writeCmdOffset ≤ (k.dev.circularBuffer.slot seekto.writeCmd).size ∧
        slotSum k.dev.circularBuffer seekto.writeCmd =
          ((all.rtake 10).take seekto.writeCmd).flatten.length := by
  obtain ⟨hc, ho⟩ := hvalid
  have hten : (all.rtake 10).length ≤ 10 := by
    rw [List.rtake, List.length_drop]
    omega
  have hsum := h.slotSum_le seekto.writeCmd (by omega)
  have htotal := hsmall.total_lt
  have hadjust := adjust_eq k.dev fPos seekto (by omega) (by omega)
  have hoff := seekto.writeCmdOffset_lt
  unfold SeekWorks
  rw [aesdIoctl_seekto, hadjust]
  by_cases hin : seekto.writeCmdOffset ≤ (k.dev.circularBuffer.slot seekto.writeCmd).size
  · rw [if_pos hin]
    simp only [true_and, hin]
    constructor
    · intro hworks
      obtain ⟨rs, hrs, hlong, hall⟩ := hworks
        (List.replicate ((all.rtake 10).flatten.length + 1) 1) (by simp)
      obtain ⟨rs', hrs', _, _, hall', _⟩ := h.shows.drain_exact hsmall
        (List.replicate ((all.rtake 10).flatten.length + 1) 1) (by simp)
        (slotSum k.dev.circularBuffer seekto.writeCmd + seekto.writeCmdOffset) (by omega)
      cases Option.some.inj (hrs.symm.trans hrs')
      have hzero := hlong (by simp)
      exact (drop_eq_iff _ _ _ _ hc ho).mp ((hall' hzero).symm.trans (hall hzero))
    · intro heq counts hcounts
      obtain ⟨rs, hrs, _, _, hall, hlong⟩ := h.shows.drain_exact hsmall counts hcounts
        (slotSum k.dev.circularBuffer seekto.writeCmd + seekto.writeCmdOffset) (by omega)
      refine ⟨rs, hrs, fun hlt => hlong (by omega), fun hzero => ?_⟩
      rw [hall hzero]
      exact (drop_eq_iff _ _ _ _ hc ho).mpr heq
  · rw [if_neg hin]
    constructor
    · intro hworks
      have hret : -EINVAL = 0 := hworks.1
      exact absurd hret (by decide)
    · intro hcond
      exact absurd hcond.1 hin

private theorem flatten_take_succ (cmds : List (List UInt8)) (c : ℕ) (hc : c < cmds.length) :
    (cmds.take (c + 1)).flatten.length =
      (cmds.take c).flatten.length + (cmds.getD c []).length := by
  rw [List.take_succ_eq_append_getElem hc, List.getD_eq_getElem _ _ hc, List.flatten_append,
    List.length_append, List.flatten_singleton]

private theorem slotSum_eq_of_aligned (cmds : List (List UInt8)) (c : ℕ)
    (hc : c ≤ cmds.length) (h : SlotsAligned k cmds) :
    slotSum k.dev.circularBuffer c = (cmds.take c).flatten.length := by
  induction c with
  | zero => rfl
  | succ c ih =>
    rw [slotSum_succ, ih (by omega), h c (by omega), flatten_take_succ cmds c (by omega)]

/-- Every target works if and only if the slots line up with the commands. -/
theorem Holds.aligned_iff (h : Holds k es all) (hsmall : Small (all.rtake 10)) (fPos : ℤ) :
    (∀ seekto, ValidTarget (all.rtake 10) seekto → SeekWorks k (all.rtake 10) fPos seekto) ↔
      SlotsAligned k (all.rtake 10) := by
  have hne : ∀ cmd ∈ all.rtake 10, cmd ≠ [] :=
    fun cmd hcmd => h.nonempty cmd (List.mem_of_mem_drop hcmd)
  generalize hcmds : all.rtake 10 = cmds at *
  have hiff := h.seekWorks_iff (hcmds ▸ hsmall) fPos
  rw [hcmds] at hiff
  have hten : cmds.length ≤ 10 := by
    rw [← hcmds, List.rtake, List.length_drop]
    omega
  constructor
  · intro hworks
    have hsum : ∀ c < cmds.length,
        slotSum k.dev.circularBuffer c = (cmds.take c).flatten.length := by
      intro c hc
      have hpos : 0 < (cmds.getD c []).length := by
        rw [List.getD_eq_getElem _ _ hc, List.length_pos_iff]
        exact hne _ (List.getElem_mem hc)
      have hvalid : ValidTarget cmds ⟨c, 0, by omega, by decide⟩ := ⟨hc, hpos⟩
      exact ((hiff _ hvalid).mp (hworks _ hvalid)).2
    have htotal := h.slotSum_all
    rw [hcmds] at htotal
    intro i hi
    have hnext : slotSum k.dev.circularBuffer (i + 1) = (cmds.take (i + 1)).flatten.length := by
      by_cases hlast : i + 1 < cmds.length
      · exact hsum (i + 1) hlast
      · have hi' : i + 1 = cmds.length := by omega
        rw [hi', htotal, List.take_length]
    rw [slotSum_succ, hsum i hi, flatten_take_succ cmds i hi] at hnext
    omega
  · intro haligned seekto hvalid
    refine (hiff seekto hvalid).mpr ⟨?_, slotSum_eq_of_aligned cmds _ hvalid.1.le haligned⟩
    rw [haligned _ hvalid.1]
    exact hvalid.2.le

/-- Before the first eviction slot `i` holds the command of age `i`. -/
theorem Shows.aligned {cmds : List (List UInt8)} (h : Shows k cmds)
    (hzero : k.dev.circularBuffer.outOffs = 0) (hten : cmds.length ≤ 10) :
    SlotsAligned k cmds := by
  intro i hi
  obtain ⟨p, he, _⟩ := h.stored i _ (List.getElem?_eq_getElem hi)
  rw [hzero, Nat.zero_add, Nat.mod_eq_of_lt (by omega)] at he
  rw [he, List.getD_eq_getElem _ _ hi]

end Targets

/-- Seeking to a command agrees with the read order on every valid target if and
only if each slot is as long as the live command of that age, which is so while
the oldest command is in slot 0; one target works if and only if its offset fits
the slot with its number and the slots before it sum to its position. -/
theorem seekto_agrees_iff_aligned (calls : List WriteCall) (k : Kernel)
    (hrun : runWrites aesdInitModule calls = some k) :
    ∃ cmds, k.LiveCommands cmds ∧
      ((∀ cmd ∈ cmds, cmd.length ≤ 65536) → cmds.flatten.length < 2 ^ 32 → ∀ fPos : ℤ,
        ((∀ seekto, ValidTarget cmds seekto → SeekWorks k cmds fPos seekto) ↔
          SlotsAligned k cmds) ∧
        (k.dev.circularBuffer.outOffs = 0 → SlotsAligned k cmds) ∧
        ∀ seekto, ValidTarget cmds seekto → (SeekWorks k cmds fPos seekto ↔
          seekto.writeCmdOffset ≤ (k.dev.circularBuffer.slot seekto.writeCmd).size ∧
            slotSum k.dev.circularBuffer seekto.writeCmd =
              (cmds.take seekto.writeCmd).flatten.length)) := by
  obtain ⟨es, all, hholds⟩ := exists_holds calls k hrun
  refine ⟨all.rtake 10, hholds.shows.liveCommands, fun hcmd htotal fPos => ⟨?_, ?_, ?_⟩⟩
  · exact hholds.aligned_iff ⟨hcmd, htotal⟩ fPos
  · intro hzero
    apply hholds.shows.aligned hzero
    rw [List.rtake, List.length_drop]
    omega
  · exact hholds.seekWorks_iff ⟨hcmd, htotal⟩ fPos

/-- In a device of two commands the seek to offset 1 of the newer one works. -/
theorem seekto_two_commands :
    ∃ k, runWrites aesdInitModule
        [.granted ⟨[97, 98, 10], by decide⟩ 0, .granted ⟨[99, 10], by decide⟩ 0] = some k ∧
      SeekWorks k [[97, 98, 10], [99, 10]] 0 ⟨1, 1, by decide, by decide⟩ := by
  have hvals : (runWrites aesdInitModule
      [.granted ⟨[97, 98, 10], by decide⟩ 0, .granted ⟨[99, 10], by decide⟩ 0]).map
        (fun k => (k.dev.circularBuffer.live.map k.bytesOf,
          (k.dev.circularBuffer.slot 1).size, slotSum k.dev.circularBuffer 1)) =
      some ([some [97, 98, 10], some [99, 10]], 2, 3) := by decide
  obtain ⟨k, hk, hvals⟩ := Option.map_eq_some_iff.mp hvals
  simp only [Prod.mk.injEq] at hvals
  obtain ⟨hlive, hslot, hsum⟩ := hvals
  obtain ⟨cmds, hcmds, hseek⟩ := seekto_agrees_iff_aligned _ k hk
  cases liveCommands_unique k cmds [[97, 98, 10], [99, 10]] hcmds hlive
  refine ⟨k, hk, ((hseek (by decide) (by decide) 0).2.2 _ (by decide)).mpr ⟨?_, ?_⟩⟩
  · rw [hslot]
    decide
  · rw [hsum]
    decide

/-- Eleven commands, the last one longer than the others: the oldest is in slot 1
and slot 0 holds the newest, so the seek to the second oldest skips too much. -/
theorem seekto_wrong_after_eviction :
    ∃ calls k cmds seekto, runWrites aesdInitModule calls = some k ∧ k.LiveCommands cmds ∧
      (∀ cmd ∈ cmds, cmd.length ≤ 65536) ∧ cmds.flatten.length < 2 ^ 32 ∧
      ValidTarget cmds seekto ∧
      aesdIoctl k.dev 0 iocSeekto (some seekto) false = ⟨4, 0⟩ ∧
      (cmds.take seekto.writeCmd).flatten.length = 2 ∧ ¬ SeekWorks k cmds 0 seekto := by
  have hvals : (runWrites aesdInitModule
      (List.replicate 10 (.granted ⟨[97, 10], by decide⟩ 0) ++
        [.granted ⟨[98, 98, 98, 10], by decide⟩ 0])).map
        (fun k => (k.dev.circularBuffer.live.map k.bytesOf, slotSum k.dev.circularBuffer 1,
          aesdIoctl k.dev 0 iocSeekto (some ⟨1, 0, by decide, by decide⟩) false)) =
      some ((List.replicate 9 ([97, 10] : List UInt8) ++ [[98, 98, 98, 10]]).map some, 4,
        ⟨4, 0⟩) := by decide
  obtain ⟨k, hk, hvals⟩ := Option.map_eq_some_iff.mp hvals
  simp only [Prod.mk.injEq] at hvals
  obtain ⟨hlive, hsum, hioctl⟩ := hvals
  obtain ⟨es, all, hholds⟩ := exists_holds _ k hk
  have hall := liveCommands_unique k (all.rtake 10)
    (List.replicate 9 [97, 10] ++ [[98, 98, 98, 10]]) hholds.shows.liveCommands hlive
  have hsmall : Small (all.rtake 10) := by
    rw [hall]
    exact ⟨by decide, by decide⟩
  have hvalid : ValidTarget (all.rtake 10) ⟨1, 0, by decide, by decide⟩ := by
    rw [hall]
    decide
  have hiff := hholds.seekWorks_iff hsmall 0 _ hvalid
  rw [hall] at hiff
  refine ⟨_, k, _, ⟨1, 0, by decide, by decide⟩, hk, hlive, by decide, by decide, by decide,
    hioctl, by decide, ?_⟩
  rw [hiff, hsum]
  rintro ⟨_, hposition⟩
  exact absurd hposition (by decide)

end Aesd.Driver
