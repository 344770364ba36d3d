import Aesd.DeviceContent
import Mathlib.Algebra.Order.BigOperators.Group.List
import Mathlib.Algebra.Order.Ring.Nat
import Mathlib.Data.Nat.Cast.Basic

/-!
Reading the device back. One `aesd_read` returns the rest of one command, or as
much of it as was asked for; a sequence of reads therefore returns the live
content from the start position on, whatever the counts are. The 32-bit sum and
the 16-bit offset of the lookup bound the sizes for which this is so.
-/
namespace Aesd.Driver

open Segments

/-- Commands small enough for the lookup: 16-bit offsets, 32-bit total. -/
structure Small (cmds : List (List UInt8)) : Prop where
  cmd_le : ∀ cmd ∈ cmds, cmd.length ≤ 65536
  total_lt : cmds.flatten.length < 2 ^ 32

/-- Ten commands of at most 65536 bytes are small. -/
theorem small_of_le (cmds : List (List UInt8)) (hcount : cmds.length ≤ 10)
    (hle : ∀ cmd ∈ cmds, cmd.length ≤ 65536) : Small cmds := by
  refine ⟨hle, ?_⟩
  have hsum := List.sum_le_card_nsmul (cmds.map List.length) 65536 (by
    intro n hn
    obtain ⟨cmd, hcmd, rfl⟩ := List.mem_map.mp hn
    exact hle cmd hcmd)
  rw [List.length_map, nsmul_eq_mul, Nat.cast_id] at hsum
  rw [List.length_flatten]
  omega

theorem Small.walkFits {cmds : List (List UInt8)} (h : Small cmds) (p : ℕ) :
    CircularBuffer.WalkFits (cmds.map List.length) p := by
  apply CircularBuffer.walkFits_of_small
  · rw [← List.length_flatten]
    exact h.total_lt
  · intro n hn
    obtain ⟨cmd, hcmd, rfl⟩ := List.mem_map.mp hn
    exact h.cmd_le cmd hcmd

/-- The second half of a read, on a slot that holds the command `c`, whatever the
copy to user space does. -/
theorem copyEntry_stored (k : Kernel) (fPos : ℤ) (count uncopied idx off : ℕ)
    (c : List UInt8) (hslot : Stored k.heap (k.dev.circularBuffer.slot idx) c)
    (hoff : off ≤ c.length) (hlen : c.length < 2 ^ 64) :
    copyEntry k fPos count uncopied idx off =
      some (if uncopied ≠ 0 then
        ⟨fPos, -EFAULT, ((c.drop off).take (min count (c.length - off))).take
          (min count (c.length - off) - uncopied)⟩
      else ⟨loffT (fPos + (min count (c.length - off) : ℕ)),
        loffT (min count (c.length - off) : ℕ),
        (c.drop off).take (min count (c.length - off))⟩) := by
  obtain ⟨p, hentry, hp⟩ := hslot
  have hsize : sizeT ((c.length : ℤ) - off) = c.length - off := by
    unfold sizeT
    omega
  have hcount : (if c.length - off < count then c.length - off else count) =
      min count (c.length - off) := by
    split <;> omega
  have hread : k.heap.read p off (min count (c.length - off)) =
      some ((c.drop off).take (min count (c.length - off))) := by
    rw [Heap.read_eq_some_iff]
    exact ⟨c, hp, by omega, rfl⟩
  simp only [copyEntry, hentry, hsize, hcount, Option.bind_some, hread, Option.map_some]

theorem copyEntry_eq (k : Kernel) (fPos : ℤ) (count idx off : ℕ) (c : List UInt8)
    (hslot : Stored k.heap (k.dev.circularBuffer.slot idx) c) (hoff : off ≤ c.length)
    (hlen : c.length < 2 ^ 64) :
    copyEntry k fPos count 0 idx off =
      some ⟨loffT (fPos + (min count (c.length - off) : ℕ)),
        loffT (min count (c.length - off) : ℕ),
        (c.drop off).take (min count (c.length - off))⟩ := by
  simpa using copyEntry_stored k fPos count 0 idx off c hslot hoff hlen

namespace Shows

variable {k : Kernel} {cmds : List (List UInt8)}

theorem find_eq (h : Shows k cmds) (p : ℕ)
    (hfits : CircularBuffer.WalkFits (cmds.map List.length) p) :
    k.dev.circularBuffer.findEntryOffsetForFpos p =
      some ((locate (cmds.map List.length) p).map
        (fun q => ((k.dev.circularBuffer.outOffs + q.1) % 10, q.2))) := by
  rw [CircularBuffer.findEntryOffsetForFpos_eq_walk _ _ h.inOffs_lt h.outOffs_lt,
    h.liveSizes_eq, CircularBuffer.walk_eq_locate _ p hfits]

/-- At or past the end of the content a read returns 0. -/
theorem read_end (h : Shows k cmds) (hsmall : Small cmds) (p count : ℕ) (hp : p < 2 ^ 63)
    (hend : cmds.flatten.length ≤ p) : aesdRead k p count 0 = some ⟨p, 0, []⟩ := by
  have hloc : locate (cmds.map List.length) p = none := by
    rw [locate_eq_none_iff, ← List.length_flatten]
    exact hend
  rw [aesdRead, sizeT_of_lt p (by omega), h.find_eq p (hsmall.walkFits p), hloc]
  rfl

/-- Before the end a read returns bytes of the one command at the position. -/
theorem read_inside (h : Shows k cmds) (hsmall : Small cmds) (p count i o : ℕ)
    (c : List UInt8) (hc : cmds[i]? = some c)
    (hloc : locate (cmds.map List.length) p = some (i, o)) :
    aesdRead k p count 0 =
      some ⟨(p + min count (c.length - o) : ℕ), (min count (c.length - o) : ℕ),
        (c.drop o).take (min count (c.length - o))⟩ := by
  obtain ⟨hi, ho, hsum⟩ := (locate_eq_some_iff _ _ _ _).mp hloc
  obtain ⟨hi', rfl⟩ := List.getElem?_eq_some_iff.mp hc
  have hle := take_sum_add_le _ i hi
  rw [List.getElem_map] at ho hle
  have htotal := hsmall.total_lt
  rw [List.length_flatten] at htotal
  rw [aesdRead, sizeT_of_lt p (by omega), h.find_eq p (hsmall.walkFits p), hloc]
  simp only [Option.map_some, Option.bind_some]
  have hn : loffT (min count (cmds[i].length - o) : ℕ) = (min count (cmds[i].length - o) : ℕ) :=
    loffT_of_range _ (by omega) (by omega)
  have hpos : loffT ((p : ℤ) + (min count (cmds[i].length - o) : ℕ)) =
      (p + min count (cmds[i].length - o) : ℕ) := by
    rw [loffT_of_range _ (by omega) (by omega)]
    omega
  have hlen : cmds[i].length < 2 ^ 64 := by omega
  rw [copyEntry_eq k p count _ o _ (h.stored i _ hc) ho.le hlen, hn, hpos]

end Shows

/-- Reads with the given counts, one after the other through one open file. -/
def drain (k : Kernel) : ℤ → List ℕ → Option (List ReadResult)
  | _, [] => some []
  | fPos, count :: rest =>
      (aesdRead k fPos count 0).bind (fun r => (drain k r.fPos rest).map (fun rs => r :: rs))

/-- The file position after the reads `rs` that started at `p`. -/
def positionAfter (p : ℤ) (rs : List ReadResult) : ℤ :=
  (rs.getLast?.map ReadResult.fPos).getD p

/-- What one read at `pos` has to return for the content `cmds`. -/
structure ReadExact (cmds : List (List UInt8)) (pos : ℤ) (count : ℕ) (r : ReadResult) :
    Prop where
  zero_iff : r.retval = 0 ↔ cmds.flatten.length ≤ pos
  length_eq : r.data.length = r.retval
  bounds : r.retval ≠ 0 → 1 ≤ r.retval ∧ r.retval ≤ count
  advance : r.fPos = pos + r.retval
  one_command : r.retval ≠ 0 → ∃ i o c, cmds[i]? = some c ∧
    pos = ((cmds.take i).flatten.length + o : ℕ) ∧ o + r.data.length ≤ c.length ∧
    r.data = (c.drop o).take r.data.length

theorem flatten_take_length (cmds : List (List UInt8)) (i : ℕ) :
    (cmds.take i).flatten.length = ((cmds.map List.length).take i).sum := by
  rw [List.length_flatten, List.map_take]

theorem Shows.read_exact {k : Kernel} {cmds : List (List UInt8)} (h : Shows k cmds)
    (hsmall : Small cmds) (p count : ℕ) (hp : p < 2 ^ 63) (hcount : 0 < count) :
    ∃ (n : ℕ) (data : List UInt8), aesdRead k p count 0 = some ⟨(p + n : ℕ), n, data⟩ ∧
      ReadExact cmds p count ⟨(p + n : ℕ), n, data⟩ ∧ p + n < 2 ^ 63 ∧
      data ++ cmds.flatten.drop (p + n) = cmds.flatten.drop p := by
  by_cases hend : cmds.flatten.length ≤ p
  · refine ⟨0, [], h.read_end hsmall p count hp hend, ?_, hp, rfl⟩
    constructor
    · exact iff_of_true rfl (Int.ofNat_le.mpr hend)
    · rfl
    · simp
    · simp
    · simp
  · obtain ⟨i, o, hloc⟩ := locate_of_lt (cmds.map List.length) p (by
      rw [← List.length_flatten]
      omega)
    obtain ⟨hi, ho, hsum⟩ := (locate_eq_some_iff _ _ _ _).mp hloc
    have hi' : i < cmds.length := by simpa using hi
    rw [List.getElem_map] at ho
    have hle := take_sum_add_le _ i hi
    have htotal := hsmall.total_lt
    rw [List.getElem_map, ← List.length_flatten] at hle
    have hread := h.read_inside hsmall p count i o cmds[i] (List.getElem?_eq_getElem hi') hloc
    have hlen : ((cmds[i].drop o).take (min count (cmds[i].length - o))).length =
        min count (cmds[i].length - o) := by
      simp
    refine ⟨min count (cmds[i].length - o), _, hread, ?_, by omega, ?_⟩
    · constructor
      · constructor
        · intro hzero
          simp only at hzero
          omega
        · intro hge
          omega
      · simp only [hlen]
      · intro _
        simp only
        omega
      · simp
      · intro _
        refine ⟨i, o, cmds[i], List.getElem?_eq_getElem hi', ?_, ?_, ?_⟩
        · rw [flatten_take_length, hsum]
        · simp only [hlen]
          omega
        · simp only [hlen]
    · rw [← hsum, drop_flatten cmds i o hi' ho.le, Nat.add_assoc,
        drop_flatten cmds i _ hi' (by omega), ← List.append_assoc, ← List.drop_drop,
        List.take_append_drop]

theorem positionAfter_cons (p : ℤ) (r : ReadResult) (rs : List ReadResult) :
    positionAfter p (r :: rs) = positionAfter r.fPos rs := by
  cases rs with
  | nil => rfl
  | cons s rest => simp [positionAfter, List.getLast?_cons]

/-- The bytes of the reads before the first one that returned 0. -/
def drained (rs : List ReadResult) : List UInt8 :=
  (rs.takeWhile (fun r => decide (r.retval ≠ 0))).flatMap ReadResult.data

/-- The reads of a drain, for any sequence of positive counts. -/
theorem Shows.drain_exact {k : Kernel} {cmds : List (List UInt8)} (h : Shows k cmds)
    (hsmall : Small cmds) (counts : List ℕ) (hcounts : ∀ count ∈ counts, 0 < count)
    (p : ℕ) (hp : p < 2 ^ 63) :
    ∃ rs, drain k p counts = some rs ∧ rs.length = counts.length ∧
      (∀ done r rest count, rs = done ++ r :: rest → counts[done.length]? = some count →
        ReadExact cmds (positionAfter p done) count r) ∧
      ((∃ r ∈ rs, r.retval = 0) → drained rs = cmds.flatten.drop p) ∧
      (cmds.flatten.length - p < counts.length → ∃ r ∈ rs, r.retval = 0) := by
  induction counts generalizing p with
  | nil => exact ⟨[], rfl, rfl, by simp, by simp, by simp⟩
  | cons count counts ih =>
    obtain ⟨n, data, hread, hexact, hp', happend⟩ :=
      h.read_exact hsmall p count hp (hcounts count (by simp))
    obtain ⟨rs, hdrain, hlen, heach, hall, hlong⟩ :=
      ih (fun c hc => hcounts c (by simp [hc])) (p + n) hp'
    refine ⟨⟨(p + n : ℕ), n, data⟩ :: rs, ?_, by simp [hlen], ?_, ?_, ?_⟩
    · rw [drain, hread, Option.bind_some]
      simp only [hdrain, Option.map_some]
    · intro done r rest count' hrs hcount'
      cases done with
      | nil =>
        simp only [List.nil_append, List.cons.injEq] at hrs
        simp only [List.length_nil, List.getElem?_cons_zero, Option.some.injEq] at hcount'
        obtain ⟨rfl, rfl⟩ := hrs
        subst hcount'
        exact hexact
      | cons s done =>
        simp only [List.cons_append, List.cons.injEq] at hrs
        obtain ⟨rfl, hrs⟩ := hrs
        rw [positionAfter_cons]
        exact heach done r rest count' hrs (by simpa using hcount')
    · intro hzero
      by_cases hn : n = 0
      · subst hn
        have hend := hexact.zero_iff.mp rfl
        rw [List.drop_eq_nil_of_le (by omega)]
        simp [drained]
      · have hrest : ∃ r ∈ rs, r.retval = 0 := by
          obtain ⟨r, hr, hr0⟩ := hzero
          rcases List.mem_cons.mp hr with rfl | hr
          · simp only at hr0
            omega
          · exact ⟨r, hr, hr0⟩
        rw [← happend, ← hall hrest]
        simp [drained, hn]
    · intro hlt
      by_cases hn : n = 0
      · exact ⟨_, List.mem_cons_self .., by simp [hn]⟩
      · have hinside : ¬ (cmds.flatten.length : ℤ) ≤ p := by
          rw [← hexact.zero_iff]
          simpa using hn
        simp only [List.length_cons] at hlt
        obtain ⟨r, hr, hr0⟩ := hlong (by omega)
        exact ⟨r, by simp [hr], hr0⟩

/-- Draining a device reached by writes returns its content from the start
position on, oldest command first, for every choice of read sizes. -/
theorem reads_drain_content (calls : List WriteCall) (k : Kernel)
    (hrun : runWrites aesdInitModule calls = some k) :
    ∃ cmds, k.LiveCommands cmds ∧
      ((∀ cmd ∈ cmds, cmd.length ≤ 65536) → cmds.flatten.length < 2 ^ 32 →
        ∀ (p : ℕ) (counts : List ℕ), p < 2 ^ 63 → (∀ count ∈ counts, 0 < count) →
          ∃ rs, drain k p counts = some rs ∧ rs.length = counts.length ∧
            (∀ done r rest count, rs = done ++ r :: rest → counts[done.length]? = some count →
              ReadExact cmds (positionAfter p done) count r) ∧
            ((∃ r ∈ rs, r.retval = 0) → drained rs = cmds.flatten.drop p) ∧
            (cmds.flatten.length - p < counts.length → ∃ r ∈ rs, r.retval = 0)) := by
  obtain ⟨es, cmds, hholds⟩ := exists_holds calls k hrun
  refine ⟨cmds.rtake 10, hholds.shows.liveCommands, ?_⟩
  intro hcmd htotal p counts hp hcounts
  exact hholds.shows.drain_exact ⟨hcmd, htotal⟩ counts hcounts p hp

/-- Two commands read back from position 1 with counts 1, 9, 9, 9 and 9. -/
theorem reads_drain_sample :
    ∃ k rs, runWrites aesdInitModule
        [.granted ⟨[97, 98, 10], by decide⟩ 0, .granted ⟨[99, 10], by decide⟩ 0] = some k ∧
      drain k 1 [1, 9, 9, 9, 9] = some rs ∧ drained rs = [98, 10, 99, 10] := by
  obtain ⟨k, hk⟩ := Option.isSome_iff_exists.mp (show (runWrites aesdInitModule
    [.granted ⟨[97, 98, 10], by decide⟩ 0, .granted ⟨[99, 10], by decide⟩ 0]).isSome = true
    by decide)
  have hlive : (runWrites aesdInitModule
      [.granted ⟨[97, 98, 10], by decide⟩ 0, .granted ⟨[99, 10], by decide⟩ 0]).map
        (fun k => k.dev.circularBuffer.live.map k.bytesOf) =
      some [some [97, 98, 10], some [99, 10]] := by decide
  rw [hk, Option.map_some, Option.some.injEq] at hlive
  obtain ⟨cmds, hcmds, hdrain⟩ := reads_drain_content _ k hk
  cases liveCommands_unique k cmds [[97, 98, 10], [99, 10]] hcmds hlive
  obtain ⟨rs, hrs, _, _, hall, hlong⟩ := hdrain (by decide) (by decide) 1 [1, 9, 9, 9, 9]
    (by decide) (by decide)
  exact ⟨k, rs, hk, hrs, hall (hlong (by decide))⟩

end Aesd.Driver
