import Aesd.CommandLog
import Mathlib.Data.List.Nodup

/-!
Who owns which heap block. A block is allocated for the command being collected,
goes over to a slot of the circular buffer with the hand-over, and is freed when
the slot is overwritten. In every state between two writes the allocated blocks
are those of the pending entry and of the live slots, each referenced once.
-/
namespace Aesd

/-- Slot `i` is one of the slots from `outOffs` up to `inOffs`. -/
def CircularBuffer.IsLive (buffer : CircularBuffer) (i : ℕ) : Prop :=
  ∃ j < buffer.liveCount, (buffer.outOffs + j) % maxWriteOperationsSupported = i

theorem CircularBuffer.Tracks.mem_live_iff {buffer : CircularBuffer} {es : List BufferEntry}
    (h : buffer.Tracks es) (e : BufferEntry) :
    e ∈ buffer.live ↔ ∃ i, es.length ≤ i + 10 ∧ es[i]? = some e := by
  rw [h.live_eq, maxWriteOperationsSupported, List.rtake, List.mem_iff_getElem?]
  constructor
  · intro hmem
    obtain ⟨i, he⟩ := hmem
    rw [List.getElem?_drop] at he
    exact ⟨_, by omega, he⟩
  · intro hmem
    obtain ⟨i, hi, he⟩ := hmem
    refine ⟨i - (es.length - 10), ?_⟩
    rw [List.getElem?_drop, Nat.add_sub_cancel' (by omega), he]

/-- A slot that has been written holds one of the ten newest entries. -/
theorem CircularBuffer.Tracks.slot_written {buffer : CircularBuffer} {es : List BufferEntry}
    (h : buffer.Tracks es) (i : ℕ) (hi : i < 10) (hlt : i < es.length) :
    ∃ n, es.length ≤ n + 10 ∧ n % 10 = i ∧ es[n]? = some (buffer.slot i) := by
  obtain ⟨n, hn, hmod, hnew, hslot⟩ := h.exists_stored i hi hlt
  exact ⟨n, hnew, hmod, by rw [hslot, List.getElem?_eq_getElem hn]⟩

/-- A slot that is not live has never been written. -/
theorem CircularBuffer.Tracks.slot_of_not_live {buffer : CircularBuffer}
    {es : List BufferEntry} (h : buffer.Tracks es) (i : ℕ) (hi : i < 10)
    (hdead : ¬ buffer.IsLive i) : buffer.slot i = .zero := by
  have hcount := h.liveCount_eq
  have hout : buffer.outOffs = (es.length - 10) % 10 := h.out_eq
  apply h.untouched i _ hi
  by_contra hlt
  apply hdead
  refine ⟨(i + 10 - buffer.outOffs) % 10, ?_, ?_⟩
  · rw [hcount, maxWriteOperationsSupported]
    omega
  · rw [maxWriteOperationsSupported]
    omega

namespace Driver

/-- The blocks that the device refers to: the pending one and those of the live slots. -/
def Kernel.blocks (k : Kernel) : List ℕ :=
  k.dev.entryCache.buffptr.toList ++ k.dev.circularBuffer.live.filterMap BufferEntry.buffptr

/-- Every allocated block is referred to. -/
def NoStray (k : Kernel) : Prop := ∀ b, k.heap.data b ≠ none → b ∈ k.blocks

/-- The entry has a block, and its size is the number of bytes in it, at least one. -/
def Backed (heap : Heap UInt8) (e : BufferEntry) : Prop :=
  ∃ p bytes, e.buffptr = some p ∧ heap.data p = some bytes ∧ e.size = bytes.length ∧ 0 < e.size

/-- The device owns the allocated blocks, each through one reference. -/
structure Owned (k : Kernel) : Prop where
  allocated_iff : ∀ b, (k.heap.data b).isSome = true ↔ b ∈ k.blocks
  nodup : k.blocks.Nodup
  pending : k.dev.entryCache = ⟨none, 0⟩ ∨ Backed k.heap k.dev.entryCache
  live : ∀ e ∈ k.dev.circularBuffer.live, Backed k.heap e
  dead : ∀ i < 10, ¬ k.dev.circularBuffer.IsLive i → k.dev.circularBuffer.slot i = ⟨none, 0⟩

theorem mem_blocks_iff {k : Kernel} {es : List BufferEntry} {cmds : List (List UInt8)}
    (h : Holds k es cmds) (b : ℕ) :
    b ∈ k.blocks ↔ k.dev.entryCache.buffptr = some b ∨
      ∃ i e, es.length ≤ i + 10 ∧ es[i]? = some e ∧ e.buffptr = some b := by
  rw [Kernel.blocks, List.mem_append, Option.mem_toList, List.mem_filterMap]
  apply or_congr Iff.rfl
  constructor
  · intro hmem
    obtain ⟨e, he, hb⟩ := hmem
    obtain ⟨i, hi, hei⟩ := (h.tracks.mem_live_iff e).mp he
    exact ⟨i, e, hi, hei, hb⟩
  · intro hmem
    obtain ⟨i, e, hi, hei, hb⟩ := hmem
    exact ⟨e, (h.tracks.mem_live_iff e).mpr ⟨i, hi, hei⟩, hb⟩

/-- The hand-over frees the evicted block and clears the pending entry. -/
theorem handOver_eq_some {k k' : Kernel} (h : handOver k = some k') :
    k.heap.kfree (k.dev.circularBuffer.addEntry k.dev.entryCache).2 = some k'.heap ∧
      k'.dev.circularBuffer = (k.dev.circularBuffer.addEntry k.dev.entryCache).1 ∧
      k'.dev.entryCache = ⟨none, 0⟩ := by
  obtain ⟨heap, hfree, rfl⟩ := Option.map_eq_some_iff.mp h
  exact ⟨hfree, rfl, rfl⟩

section Ownership

variable {k : Kernel} {es : List BufferEntry} {cmds : List (List UInt8)}

/-- The evicted block is that of the oldest live entry, which leaves the window. -/
theorem Holds.evicted_block (h : Holds k es cmds) (q : ℕ)
    (hq : (k.dev.circularBuffer.addEntry k.dev.entryCache).2 = some q) :
    10 ≤ es.length ∧ ∃ e, es[es.length - 10]? = some e ∧ e.buffptr = some q := by
  have hsnd := h.tracks.addEntry_snd k.dev.entryCache
  rw [hq] at hsnd
  split at hsnd
  · cases hsnd
  · rename_i hge
    obtain ⟨e, he, hptr⟩ := Option.bind_eq_some_iff.mp hsnd.symm
    exact ⟨Nat.le_of_not_lt hge, e, he, hptr⟩

theorem NoStray.appended (h : NoStray k) (data head : List UInt8) (tmp : ℕ)
    (heap : Heap UInt8) (happ : Appended k.heap k.dev.entryCache data tmp head heap) (n : ℕ) :
    NoStray ⟨{ k.dev with entryCache := ⟨some tmp, n⟩ }, heap⟩ := by
  intro b hb
  simp only [Kernel.blocks, List.mem_append, Option.mem_toList, Option.some.injEq]
  by_cases htmp : b = tmp
  · exact Or.inl htmp.symm
  · right
    have hold : (withoutCache k.heap k.dev.entryCache).data b ≠ none := by
      rw [← happ.elsewhere b htmp]
      exact hb
    unfold withoutCache at hold
    split at hold
    · rename_i hnull
      have hmem := h b hold
      simpa [Kernel.blocks, hnull] using hmem
    · rename_i p hp
      have hbp : b ≠ p := by
        intro heq
        rw [heq, Store.data_erase_self] at hold
        exact hold rfl
      rw [Store.data_erase_of_ne _ hbp] at hold
      have hmem := h b hold
      simpa [Kernel.blocks, hp, hbp] using hmem

theorem NoStray.handOver {k' : Kernel} (h : NoStray k) (hholds : Holds k es cmds)
    (hk' : handOver k = some k') : NoStray k' := by
  obtain ⟨hfree, hring, hcache⟩ := handOver_eq_some hk'
  have hnext := hholds.tracks.addEntry k.dev.entryCache
  intro b hb
  have hdata := Heap.kfree_data hfree b
  split at hdata
  · exact absurd hdata hb
  · rename_i hq
    rw [hdata] at hb
    have hmem : ∃ e ∈ (k.dev.circularBuffer.addEntry k.dev.entryCache).1.live,
        e.buffptr = some b := by
      rcases (mem_blocks_iff hholds b).mp (h b hb) with hcached | ⟨i, e, hi, he, hptr⟩
      · refine ⟨k.dev.entryCache, (hnext.mem_live_iff _).mpr ⟨es.length, ?_, ?_⟩, hcached⟩
        · rw [List.length_append, List.length_singleton]
          omega
        · exact List.getElem?_concat_length
      · obtain ⟨hlt, _⟩ := List.getElem?_eq_some_iff.mp he
        refine ⟨e, (hnext.mem_live_iff _).mpr ⟨i, ?_, ?_⟩, hptr⟩
        · rw [List.length_append, List.length_singleton]
          by_contra hgt
          have hidx : i = es.length - 10 := by omega
          apply hq
          rw [hholds.tracks.addEntry_snd, if_neg (by rw [maxWriteOperationsSupported]; omega),
            maxWriteOperationsSupported, ← hidx, he, Option.bind_some, hptr]
        · rw [List.getElem?_append_left hlt]
          exact he
    obtain ⟨e, he, hptr⟩ := hmem
    rw [Kernel.blocks, hring, hcache]
    exact List.mem_append_right _ (List.mem_filterMap.mpr ⟨e, he, hptr⟩)

/-- One write that copies its whole payload leaves no block behind. -/
theorem NoStray.write (h : NoStray k) (hholds : Holds k es cmds) (call : WriteCall)
    (hcopy : call.uncopied = 0) (r : WriteResult) (hr : aesdWrite k call = some r) :
    NoStray r.kernel := by
  cases aesdWrite_effect k call r hr with
  | refused errno hrefusal => exact h
  | faulted data head tmp heap hrefusal hfault happ => exact absurd hcopy hfault
  | appended bytes head tmp heap k' hpayload hne _ happ hcommit =>
    have hstray := h.appended bytes head tmp heap happ (head ++ bytes).length
    have hfits := happ.fits
    rw [commitEntry_eq _ tmp (head ++ bytes) rfl happ.at_tmp (by simp [hne])
      (by rw [List.length_append, happ.head_length]; exact hfits)] at hcommit
    split at hcommit
    · exact hstray.handOver (hholds.appended bytes head tmp heap happ) hcommit
    · cases hcommit
      exact hstray

theorem Holds.nodup_live (h : Holds k es cmds) :
    (k.dev.circularBuffer.live.filterMap BufferEntry.buffptr).Nodup := by
  rw [h.tracks.live_eq, maxWriteOperationsSupported, List.rtake, List.Nodup,
    List.pairwise_filterMap, List.pairwise_iff_getElem]
  intro i j hi hj hlt b hb c hc hbc
  rw [List.length_drop] at hi hj
  rw [List.getElem_drop] at hb hc
  have hsame := h.distinct (es.length - 10 + i) (es.length - 10 + j) _ _ (by omega) (by omega)
    (List.getElem?_eq_getElem (by omega)) (List.getElem?_eq_getElem (by omega))
    (hb.trans (hbc ▸ hc.symm))
  omega

/-- The references are distinct, and each names an allocated block of the recorded size. -/
theorem Holds.owned (h : Holds k es cmds) (hstray : NoStray k) (pending : List UInt8)
    (hcache : CacheHolds k.heap k.dev.entryCache pending) : Owned k := by
  have hpending : k.dev.entryCache = ⟨none, 0⟩ ∨ Backed k.heap k.dev.entryCache := by
    rcases hcache with ⟨_, hnull⟩ | ⟨hne, p, hentry, hp⟩
    · exact Or.inl hnull
    · right
      rw [hentry]
      exact ⟨p, pending, rfl, hp, rfl, List.length_pos_iff.mpr hne⟩
  have hlive : ∀ e ∈ k.dev.circularBuffer.live, Backed k.heap e := by
    intro e he
    obtain ⟨i, hi, hei⟩ := (h.tracks.mem_live_iff e).mp he
    obtain ⟨c, hc⟩ := h.exists_cmd i e hei
    obtain ⟨p, rfl, hp⟩ := h.stored i e c hi hei hc
    exact ⟨p, c, rfl, hp, rfl, List.length_pos_iff.mpr (h.nonempty c (List.mem_of_getElem? hc))⟩
  refine ⟨?_, ?_, hpending, hlive, h.tracks.slot_of_not_live⟩
  · intro b
    rw [Option.isSome_iff_ne_none]
    refine ⟨hstray b, ?_⟩
    intro hmem
    rw [Kernel.blocks, List.mem_append, Option.mem_toList, List.mem_filterMap] at hmem
    rcases hmem with hb | ⟨e, he, hb⟩
    · rcases hpending with hnull | ⟨p, bytes, hp, hdata, _⟩
      · rw [hnull] at hb
        cases hb
      · cases Option.some.inj (hp.symm.trans hb)
        simp [hdata]
    · obtain ⟨p, bytes, hp, hdata, _⟩ := hlive e he
      cases Option.some.inj (hp.symm.trans hb)
      simp [hdata]
  · rw [Kernel.blocks, List.nodup_append]
    refine ⟨?_, ?_, ?_⟩
    · cases k.dev.entryCache.buffptr <;> simp
    · exact h.nodup_live
    · intro b hb c hc hbc
      obtain ⟨e, he, hptr⟩ := List.mem_filterMap.mp hc
      obtain ⟨i, hi, hei⟩ := (h.tracks.mem_live_iff e).mp he
      apply h.apart i e hi hei
      rw [hptr, ← hbc, Option.mem_toList.mp hb]

end Ownership

/-- The block that the hand-over frees is allocated, and once the new entry is in
the buffer neither a slot nor the pending entry refers to it. -/
def FreesUnreferenced (k : Kernel) : Prop :=
  ∀ q, (k.dev.circularBuffer.addEntry k.dev.entryCache).2 = some q →
    (k.heap.data q).isSome = true ∧ k.dev.entryCache.buffptr ≠ some q ∧
      ∀ i < 10, ((k.dev.circularBuffer.addEntry k.dev.entryCache).1.slot i).buffptr ≠ some q

theorem Holds.freesUnreferenced {k : Kernel} {es : List BufferEntry}
    {cmds : List (List UInt8)} (h : Holds k es cmds) : FreesUnreferenced k := by
  intro q hq
  obtain ⟨hge, e, he, hptr⟩ := h.evicted_block q hq
  have hnext := h.tracks.addEntry k.dev.entryCache
  refine ⟨?_, ?_, ?_⟩
  · rw [Option.isSome_iff_ne_none]
    exact (h.live_block _ q e (by omega) he hptr).2
  · intro hcached
    exact h.apart _ e (by omega) he (hptr.trans hcached.symm)
  · intro i hi hsame
    obtain ⟨n, hn, _, hslot⟩ := hnext.slot_written i hi (by simp; omega)
    rw [List.length_append, List.length_singleton] at hn
    by_cases hlast : n < es.length
    · rw [List.getElem?_append_left hlast] at hslot
      have hidx := h.distinct n (es.length - 10) _ e (by omega) (by omega) hslot he
        (hsame.trans hptr.symm)
      omega
    · rw [List.getElem?_append_right (by omega)] at hslot
      obtain ⟨_, hcached⟩ := List.getElem?_eq_some_iff.mp hslot
      rw [List.getElem_singleton] at hcached
      rw [← hcached] at hsame
      exact h.apart _ e (by omega) he (hptr.trans hsame.symm)

theorem noStray_of_run (calls : List WriteCall) (k : Kernel)
    (hcopy : ∀ call ∈ calls, call.uncopied = 0)
    (hrun : runWrites aesdInitModule calls = some k) : NoStray k := by
  have hinv : (∃ es cmds, Holds k es cmds) ∧ NoStray k := by
    refine Runs.run_invariant (fun k => (∃ es cmds, Holds k es cmds) ∧ NoStray k)
      (fun _ call => call.uncopied = 0) ⟨⟨[], [], holds_init⟩, ?_⟩ ?_ calls ?_ hrun
    · intro b hb
      exact absurd rfl hb
    · intro k call k' hk hcall hstep
      obtain ⟨⟨es, cmds, hholds⟩, hstray⟩ := hk
      obtain ⟨r, hr, rfl⟩ := Option.map_eq_some_iff.mp hstep
      obtain ⟨es', cmds', hholds', _⟩ := hholds.write call r hr
      exact ⟨⟨es', cmds', hholds'⟩, hstray.write hholds call hcall r hr⟩
    · intro done call rest u hcalls _
      exact hcopy call (by simp [hcalls])
  exact hinv.2

/-- In every state reached by writes that copy their whole payload, whichever
allocations fail, the device owns exactly the allocated blocks. The next such
write has a result as long as the collected size fits, and if it hands a command
over, the block that it frees is allocated and not referenced any more. -/
theorem blocks_owned (calls : List WriteCall) (k : Kernel)
    (hcopy : ∀ call ∈ calls, call.uncopied = 0)
    (hrun : runWrites aesdInitModule calls = some k) :
    Owned k ∧
      ∀ call : WriteCall, call.uncopied = 0 →
        ((∀ data, call.payload = some data → k.dev.entryCache.size + data.length < 2 ^ 64) →
          ∃ r, aesdWrite k call = some r) ∧
        ∀ buf c, copied k call buf = some c → FreesUnreferenced (collected k buf c) := by
  obtain ⟨hrefines, _⟩ := refines_of_run calls k hcopy hrun
  obtain ⟨⟨es, hholds⟩, hcache⟩ := id hrefines
  refine ⟨hholds.owned (noStray_of_run calls k hcopy hrun) _ hcache, ?_⟩
  intro call hcall
  constructor
  · intro hfits
    have hsize : (logOf calls).pending.length = k.dev.entryCache.size := by
      rcases hcache with ⟨hnil, hentry⟩ | ⟨_, p, hentry, _⟩
      · rw [hnil, hentry]
        rfl
      · rw [hentry]
    exact hrefines.defined call hcall (fun data hdata => hsize ▸ hfits data hdata)
  · intro buf c hcopied
    obtain ⟨head, happ⟩ := copied_appended k call buf c hcopied
    simp only [hcall, Nat.sub_zero, List.take_length, Nat.zero_min, List.replicate_zero,
      List.append_nil] at happ
    rw [collected, happ.sizeT_eq]
    exact (hholds.appended buf.bytes head c.1 c.2 happ).freesUnreferenced

/-- Eleven commands, of which the first is evicted, a failed allocation, and two
writes of a command that is not complete. -/
theorem blocks_owned_sample :
    ∃ k, runWrites aesdInitModule (List.replicate 11 (.granted ⟨[97, 10], by decide⟩ 0) ++
        [{ WriteCall.granted ⟨[98, 10], by decide⟩ 0 with pick := none },
          .granted ⟨[99], by decide⟩ 5, .granted ⟨[99], by decide⟩ 40]) = some k ∧
      k.blocks = [40, 1, 2, 3, 4, 5, 6, 7, 8, 9, 10] ∧ Owned k := by
  have hvals : (runWrites aesdInitModule
      (List.replicate 11 (.granted ⟨[97, 10], by decide⟩ 0) ++
        [{ WriteCall.granted ⟨[98, 10], by decide⟩ 0 with pick := none },
          .granted ⟨[99], by decide⟩ 5, .granted ⟨[99], by decide⟩ 40])).map Kernel.blocks =
      some [40, 1, 2, 3, 4, 5, 6, 7, 8, 9, 10] := by decide
  obtain ⟨k, hk, hblocks⟩ := Option.map_eq_some_iff.mp hvals
  exact ⟨k, hk, hblocks, (blocks_owned _ k (by decide) hk).1⟩

end Driver

end Aesd
