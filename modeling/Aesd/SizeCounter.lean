import Aesd.CommandLog
import Mathlib.Algebra.Order.Group.Unbundled.Abs
import Mathlib.Data.List.MinMax

/-!
The counter `buffer_size` against the live content. On an eviction the driver
takes off the size found in the slot behind the new entry, not the size of the
evicted one, so from the eleventh command on the counter carries the size of the
first command in place of the size of the oldest live one. Seeking from the end
is exact in just those states in which these two sizes agree.
-/
namespace Aesd.Driver

theorem sizeCounter_of_le (sizes : List ℕ) (h : sizes.length ≤ 10) :
    sizeCounter sizes = sizes.sum := by
  unfold sizeCounter
  split
  · rfl
  · cases sizes with
    | nil => rfl
    | cons n rest =>
      have hrest : (n :: rest).rtake 9 = rest := by
        have hlen : rest.length = 9 := by
          simp only [List.length_cons] at *
          omega
        simp [List.rtake, hlen]
      rw [hrest]
      rfl

/-- The counter and the live total differ by the sizes of the first command and
of the oldest live one. -/
theorem sizeCounter_add_oldest (sizes : List ℕ) (h : 10 ≤ sizes.length) :
    sizeCounter sizes + sizes.getD (sizes.length - 10) 0 =
      (sizes.rtake 10).sum + sizes.headD 0 := by
  have hsplit : sizes.rtake 10 = sizes[sizes.length - 10] :: sizes.rtake 9 := by
    unfold List.rtake
    rw [List.drop_eq_getElem_cons (by omega)]
    congr 2
    omega
  have hget : sizes.getD (sizes.length - 10) 0 = sizes[sizes.length - 10] :=
    List.getD_eq_getElem _ _ _
  unfold sizeCounter
  rw [if_neg (by omega), hsplit, hget, List.sum_cons]
  omega

theorem sum_rtake_lengths (cmds : List (List UInt8)) :
    ((cmds.map List.length).rtake 10).sum = (cmds.rtake 10).flatten.length := by
  rw [List.length_flatten, List.rtake, List.rtake, List.map_drop, List.length_map]

/-- Up to the tenth command the counter is the live total. -/
theorem counter_of_le (cmds : List (List UInt8)) (h : cmds.length ≤ 10) :
    sizeCounter (cmds.map List.length) = (cmds.rtake 10).flatten.length := by
  rw [sizeCounter_of_le _ (by simpa using h), ← sum_rtake_lengths, List.rtake,
    List.length_map, Nat.sub_eq_zero_of_le h, List.drop_zero]

/-- From then on it carries the first command in place of the oldest live one. -/
theorem counter_add_oldest (cmds : List (List UInt8)) (h : 10 ≤ cmds.length) :
    sizeCounter (cmds.map List.length) + (cmds.getD (cmds.length - 10) []).length =
      (cmds.rtake 10).flatten.length + (cmds.headD []).length := by
  have hold := sizeCounter_add_oldest (cmds.map List.length) (by simpa using h)
  have hget : (cmds.map List.length).getD ((cmds.map List.length).length - 10) 0 =
      (cmds.getD (cmds.length - 10) []).length := by
    rw [List.length_map, List.getD_eq_getElem _ _ (by simp; omega),
      List.getD_eq_getElem _ _ (by omega), List.getElem_map]
  have hhead : (cmds.map List.length).headD 0 = (cmds.headD []).length := by
    cases cmds <;> rfl
  rw [hget, hhead, sum_rtake_lengths] at hold
  exact hold

/-- Seeking to `j` bytes before the end, when the counter is exact. -/
theorem llseek_end (dev : Dev) (fPos : ℤ) (j : ℕ) (hj : j ≤ dev.bufferSize)
    (hlt : dev.bufferSize < 2 ^ 63) :
    aesdLlseek dev fPos (-j) .seekEnd = ⟨dev.bufferSize - j, dev.bufferSize - j⟩ := by
  have hpos : loffT (dev.bufferSize + -(j : ℤ)) = dev.bufferSize - j := by
    unfold loffT
    omega
  simp only [aesdLlseek, hpos]
  rw [if_neg (by omega)]

theorem llseek_end_overflow (dev : Dev) (fPos : ℤ) (hge : 2 ^ 63 ≤ dev.bufferSize)
    (hlt : dev.bufferSize < 2 ^ 64) : aesdLlseek dev fPos 0 .seekEnd = ⟨fPos, -EINVAL⟩ := by
  have hneg : loffT (dev.bufferSize + 0) < 0 := by
    unfold loffT
    omega
  simp only [aesdLlseek]
  rw [if_pos hneg]

/-- The counter is the total of the live entries, and seeking from the end lands
exactly `j` bytes before the end of the content. -/
def SizeExact (k : Kernel) : Prop :=
  k.dev.bufferSize = k.dev.circularBuffer.liveSizes.sum ∧
    ∀ (j : ℕ) (fPos : ℤ), j ≤ k.dev.circularBuffer.liveSizes.sum →
      aesdLlseek k.dev fPos (-j) .seekEnd =
        ⟨k.dev.circularBuffer.liveSizes.sum - j, k.dev.circularBuffer.liveSizes.sum - j⟩

theorem sizeExact_iff (k : Kernel) (hsize : k.dev.bufferSize < 2 ^ 64) :
    SizeExact k ↔ k.dev.bufferSize = k.dev.circularBuffer.liveSizes.sum ∧
      k.dev.circularBuffer.liveSizes.sum < 2 ^ 63 := by
  constructor
  · rintro ⟨heq, hseek⟩
    refine ⟨heq, ?_⟩
    by_contra hge
    have hover := llseek_end_overflow k.dev 0 (by omega) hsize
    have hzero := hseek 0 0 (by omega)
    rw [Int.natCast_zero, neg_zero, hover, SeekResult.mk.injEq] at hzero
    have hpos := hzero.1
    omega
  · rintro ⟨heq, hlt⟩
    refine ⟨heq, fun j fPos hj => ?_⟩
    rw [← heq] at hj hlt ⊢
    exact llseek_end k.dev fPos j hj hlt

/-- After any run of writes the counter is exact if and only if at most ten
commands are complete or the oldest live one is as long as the first of all, and
the live total is a file position. -/
theorem sizeExact_iff_oldest_eq_first (calls : List WriteCall) (k : Kernel)
    (hcopy : ∀ call ∈ calls, call.uncopied = 0)
    (hrun : runWrites aesdInitModule calls = some k) :
    SizeExact k ↔
      ((logOf calls).closed.length ≤ 10 ∨
        ((logOf calls).closed.getD ((logOf calls).closed.length - 10) []).length =
          ((logOf calls).closed.headD []).length) ∧
      ((logOf calls).closed.rtake 10).flatten.length < 2 ^ 63 := by
  obtain ⟨⟨⟨es, hholds⟩, _⟩, hfits, _⟩ := refines_of_run calls k hcopy hrun
  generalize (logOf calls).closed = cmds at hholds hfits ⊢
  have hcounter := hholds.counter
  rw [sizeExact_iff k (by omega), hholds.shows.sum_liveSizes, hcounter]
  by_cases hlen : cmds.length ≤ 10
  · have hall := counter_of_le cmds hlen
    omega
  · have hold := counter_add_oldest cmds (by omega)
    have hfirst : (cmds.headD []).length < 2 ^ 64 := by
      cases cmds with
      | nil => simp
      | cons cmd rest => exact hfits cmd (by simp)
    omega

/-- Eleven commands of equal length leave the counter exact. -/
theorem sizeExact_equal_lengths :
    ∃ k, runWrites aesdInitModule
        (List.replicate 11 (.granted ⟨[97, 10], by decide⟩ 0)) = some k ∧ SizeExact k := by
  obtain ⟨k, hk⟩ := Option.isSome_iff_exists.mp (show (runWrites aesdInitModule
    (List.replicate 11 (.granted ⟨[97, 10], by decide⟩ 0))).isSome = true by decide)
  exact ⟨k, hk, (sizeExact_iff_oldest_eq_first _ k (by decide) hk).mpr (by decide)⟩

/-- A first command of two bytes and ten of one: the live total is ten, the
counter is eleven, and seeking to the end lands one byte past it. -/
theorem size_counter_wrong :
    ∃ calls k, (∀ call ∈ calls, call.uncopied = 0) ∧
      runWrites aesdInitModule calls = some k ∧
      k.dev.circularBuffer.liveSizes.sum = 10 ∧ k.dev.bufferSize = 11 ∧
      aesdLlseek k.dev 0 0 .seekEnd = ⟨11, 11⟩ ∧ ¬ SizeExact k := by
  have hrun : (runWrites aesdInitModule (.granted ⟨[97, 10], by decide⟩ 0 ::
      List.replicate 10 (.granted ⟨[10], by decide⟩ 0))).map
        (fun k => (k.dev.circularBuffer.liveSizes.sum, k.dev.bufferSize,
          aesdLlseek k.dev 0 0 .seekEnd)) = some (10, 11, ⟨11, 11⟩) := by decide
  obtain ⟨k, hk, hvals⟩ := Option.map_eq_some_iff.mp hrun
  simp only [Prod.mk.injEq] at hvals
  refine ⟨_, k, by decide, hk, hvals.1, hvals.2.1, hvals.2.2, ?_⟩
  rintro ⟨heq, _⟩
  omega

/-- What the hand-over takes off the counter, if it evicts a command. -/
def takenOff (k : Kernel) : Option ℕ :=
  let added := k.dev.circularBuffer.addEntry k.dev.entryCache
  added.2.map (fun _ => (added.1.slot added.1.inOffs).size)

/-- The call copies its payload, and the collected bytes in `mid` end in a newline. -/
def ComesToHandOver (k : Kernel) (call : WriteCall) (mid : Kernel) : Prop :=
  call.refusal = none ∧ call.uncopied = 0 ∧ ∃ buf c, call.buf = some buf ∧
    copied k call buf = some c ∧ mid = collected k buf c ∧
    lastByte mid.heap mid.dev.entryCache = some newline

/-- The size of the longest command. -/
def largest (cmds : List (List UInt8)) : ℕ := (cmds.map List.length).foldr max 0

theorem length_le_largest {cmds : List (List UInt8)} {cmd : List UInt8} (h : cmd ∈ cmds) :
    cmd.length ≤ largest cmds :=
  List.le_max_of_le' 0 (List.mem_map_of_mem h) le_rfl

/-- A call that comes to the hand-over returns what the hand-over makes of `mid`; the
counter loses the size taken off and gains that of the new command. -/
theorem ComesToHandOver.write {k mid : Kernel} {call : WriteCall}
    (h : ComesToHandOver k call mid) :
    (aesdWrite k call).map WriteResult.kernel = handOver mid ∧
      ∀ after, handOver mid = some after → after.dev.bufferSize =
        sizeT (((takenOff mid).elim (mid.dev.bufferSize : ℤ)
          (fun n => sizeT (mid.dev.bufferSize - n))) + mid.dev.entryCache.size) := by
  obtain ⟨hrefusal, hcopy, buf, c, hbuf, hcopied, rfl, hlast⟩ := h
  constructor
  · rw [aesdWrite_eq_copied k call buf hrefusal hbuf, hcopied, Option.bind_some,
      if_neg (by simpa using hcopy), commitEntry, hlast, Option.bind_some, if_pos rfl,
      Option.map_map]
    exact Option.map_id'
  · intro after hafter
    obtain ⟨heap, _, rfl⟩ := Option.map_eq_some_iff.mp hafter
    simp only [takenOff]
    cases ((collected k buf c).dev.circularBuffer.addEntry (collected k buf c).dev.entryCache).2 <;>
      rfl

section Bounds

variable {k : Kernel} {es : List BufferEntry} {cmds : List (List UInt8)}

/-- The counter never holds more than all commands together. -/
theorem sizeCounter_le_sum (sizes : List ℕ) : sizeCounter sizes ≤ sizes.sum := by
  by_cases hlen : sizes.length ≤ 10
  · rw [sizeCounter_of_le sizes hlen]
  · have hsplit := List.sum_take_add_sum_drop sizes (sizes.length - 9)
    have hhead : sizes.headD 0 ≤ (sizes.take (sizes.length - 9)).sum := by
      cases sizes with
      | nil => simp
      | cons n rest =>
        rw [List.length_cons, show rest.length + 1 - 9 = (rest.length - 9) + 1 by
          simp only [List.length_cons] at hlen
          omega, List.take_succ_cons, List.sum_cons]
        exact Nat.le_add_right _ _
    unfold sizeCounter
    rw [if_neg (by omega), List.rtake]
    omega

theorem Holds.counter_eq (h : Holds k es cmds) (hsum : (cmds.map List.length).sum < 2 ^ 63) :
    k.dev.bufferSize = sizeCounter (cmds.map List.length) := by
  have hle := sizeCounter_le_sum (cmds.map List.length)
  rw [h.counter, Nat.mod_eq_of_lt (by omega)]

/-- The size taken off is that of a command the counter has in it. -/
theorem Holds.takenOff_le (h : Holds k es cmds) (hsum : (cmds.map List.length).sum < 2 ^ 63)
    (cache : BufferEntry) (heap : Heap UInt8) (n : ℕ)
    (hn : takenOff ⟨{ k.dev with entryCache := cache }, heap⟩ = some n) :
    n ≤ k.dev.bufferSize := by
  obtain ⟨p, hp, rfl⟩ := Option.map_eq_some_iff.mp hn
  have hge : 10 ≤ es.length := by
    by_contra hlt
    have hnone := h.tracks.addEntry_snd cache
    rw [if_pos (show es.length < 10 by omega)] at hnone
    cases hnone.symm.trans hp
  have hlen : (cmds.map List.length).length = es.length := by rw [List.length_map, h.length_eq]
  have hoff := h.size_taken_off cache hge
  have hnext := sizeCounter_concat_of_le (cmds.map List.length) 0 (by omega)
  rw [h.counter_eq hsum]
  simp only
  omega

/-- The counter is off by at most one command. -/
theorem Holds.counter_error (h : Holds k es cmds)
    (hsum : (cmds.map List.length).sum < 2 ^ 63) :
    |(k.dev.bufferSize : ℤ) - k.dev.circularBuffer.liveSizes.sum| ≤ largest cmds := by
  rw [h.counter_eq hsum, h.shows.sum_liveSizes]
  by_cases hlen : cmds.length ≤ 10
  · rw [counter_of_le cmds hlen, sub_self, abs_zero]
    exact Int.natCast_nonneg _
  · have hold := counter_add_oldest cmds (by omega)
    have holdest : (cmds.getD (cmds.length - 10) []).length ≤ largest cmds := by
      rw [List.getD_eq_getElem _ _ (by omega)]
      exact length_le_largest (List.getElem_mem _)
    have hfirst : (cmds.headD []).length ≤ largest cmds := by
      cases cmds with
      | nil => simp at hlen
      | cons cmd rest => exact length_le_largest List.mem_cons_self
    rw [abs_le']
    omega

end Bounds

/-- Over every run the counter is never taken below zero, and after every command it is
off by at most the largest command so far: the error does not add up. -/
theorem counter_bounded (calls : List WriteCall) (k : Kernel)
    (hcopy : ∀ call ∈ calls, call.uncopied = 0)
    (hrun : runWrites aesdInitModule calls = some k)
    (hsum : ((logOf calls).closed.map List.length).sum < 2 ^ 63) :
    (∀ done call rest before mid n, calls = done ++ call :: rest →
      runWrites aesdInitModule done = some before → ComesToHandOver before call mid →
      takenOff mid = some n → n ≤ mid.dev.bufferSize ∧
        ∀ r, aesdWrite before call = some r → r.kernel.dev.bufferSize =
          sizeT ((mid.dev.bufferSize - n : ℕ) + mid.dev.entryCache.size)) ∧
    ∀ done rest after, calls = done ++ rest → runWrites aesdInitModule done = some after →
      |(after.dev.bufferSize : ℤ) - after.dev.circularBuffer.liveSizes.sum| ≤
        largest (logOf done).closed := by
  have hholds : ∀ done rest u, calls = done ++ rest → runWrites aesdInitModule done = some u →
      (∃ es, Holds u es (logOf done).closed) ∧
        ((logOf done).closed.map List.length).sum < 2 ^ 63 := by
    rintro done rest u rfl hu
    refine ⟨(refines_of_run done u (fun c hc => hcopy c (by simp [hc])) hu).1.1, ?_⟩
    obtain ⟨later, hlater⟩ := (logOf done).closed_kept (payloads rest)
    rw [logOf_append, CommandLog.after, ← hlater, List.map_append, List.sum_append] at hsum
    omega
  constructor
  · intro done call rest before mid n hcalls hbefore hcomes hn
    obtain ⟨⟨es, h⟩, hlt⟩ := hholds done (call :: rest) before hcalls hbefore
    obtain ⟨hwrite, hcounter⟩ := hcomes.write
    obtain ⟨_, _, buf, c, _, _, rfl, _⟩ := hcomes
    have hle := h.takenOff_le hlt _ _ n hn
    have hsize : before.dev.bufferSize < 2 ^ 64 := by
      rw [h.counter]
      exact Nat.mod_lt _ (by decide)
    have hsub : sizeT ((before.dev.bufferSize : ℤ) - n) = before.dev.bufferSize - n := by
      unfold sizeT
      omega
    refine ⟨hle, ?_⟩
    intro r hr
    rw [hr, Option.map_some] at hwrite
    rw [hcounter r.kernel hwrite.symm, hn, Option.elim_some]
    change sizeT ((sizeT ((before.dev.bufferSize : ℤ) - n) : ℤ) + _) = _
    rw [hsub]
    rfl
  · intro done rest after hcalls hafter
    obtain ⟨⟨es, h⟩, hlt⟩ := hholds done rest after hcalls hafter
    exact h.counter_error hlt

/-- A first command of two bytes and ten of one: the counter is 11 when the last of them
evicts the first, and then one more than the live total. -/
theorem counter_bounded_sample :
    ∃ k, runWrites aesdInitModule (.granted ⟨[97, 10], by decide⟩ 0 ::
        List.replicate 10 (.granted ⟨[10], by decide⟩ 0)) = some k ∧
      k.dev.bufferSize = 11 ∧ k.dev.circularBuffer.liveSizes.sum = 10 ∧
      |(k.dev.bufferSize : ℤ) - k.dev.circularBuffer.liveSizes.sum| ≤ 2 := by
  have hvals : (runWrites aesdInitModule (.granted ⟨[97, 10], by decide⟩ 0 ::
      List.replicate 10 (.granted ⟨[10], by decide⟩ 0))).map
        (fun k => (k.dev.bufferSize, k.dev.circularBuffer.liveSizes.sum)) = some (11, 10) := by
    decide
  obtain ⟨k, hk, hvals⟩ := Option.map_eq_some_iff.mp hvals
  simp only [Prod.mk.injEq] at hvals
  refine ⟨k, hk, hvals.1, hvals.2, ?_⟩
  exact (counter_bounded _ k (by decide) hk (by decide)).2 _ [] k (List.append_nil _).symm hk

end Aesd.Driver
