import Aesd.Frames
import Aesd.ModuleUnload

/-!
The device in a heap that it shares with other users. It sees the heap without their blocks,
and what it does there is what it would do alone; so their blocks stay as they are.
-/
namespace Aesd.Driver

/-- The kernel without the blocks that the device does not know of. -/
def Kernel.hide (k : Kernel) (away : ℕ → Bool) : Kernel := { k with heap := k.heap.hide away }

/-- The device shares the heap with the blocks `away`, and owns all others. -/
structure Beside (away : ℕ → Bool) (k : Kernel) : Prop where
  kept : ∀ b, away b = true → k.heap.data b ≠ none
  apart : ∀ b ∈ k.blocks, away b = false
  noStray : NoStray (k.hide away)

section Frame

variable {k : Kernel} {es : List BufferEntry} {cmds : List (List UInt8)} {away : ℕ → Bool}

theorem Holds.hide (h : Holds k es cmds) (hapart : ∀ b ∈ k.blocks, away b = false) :
    Holds (k.hide away) es cmds where
  tracks := h.tracks
  sizes := h.sizes
  nonempty := h.nonempty
  stored i e c hi he hc := by
    obtain ⟨p, rfl, hp⟩ := h.stored i e c hi he hc
    have hmem : p ∈ k.blocks := (mem_blocks_iff h p).mpr (Or.inr ⟨i, _, hi, he, rfl⟩)
    exact ⟨p, rfl, by rw [Kernel.hide, Store.data_hide_of_not _ (hapart p hmem), hp]⟩
  distinct := h.distinct
  apart := h.apart
  counter := h.counter

theorem Kernel.mem_blocks_of_cache {b : ℕ} (h : k.dev.entryCache.buffptr = some b) :
    b ∈ k.blocks := by
  simp [Kernel.blocks, h]

theorem CacheHolds.hide {pending : List UInt8} (h : CacheHolds k.heap k.dev.entryCache pending)
    (hapart : ∀ b ∈ k.blocks, away b = false) :
    CacheHolds (k.hide away).heap (k.hide away).dev.entryCache pending := by
  rcases h with hnone | ⟨hne, p, hcache, hp⟩
  · exact Or.inl hnone
  · have hseen := hapart p (Kernel.mem_blocks_of_cache (by rw [hcache]))
    exact Or.inr ⟨hne, p, hcache, by rw [Kernel.hide, Store.data_hide_of_not _ hseen, hp]⟩

theorem withoutCache_hide (heap : Heap UInt8) (cache : BufferEntry) (away : ℕ → Bool) :
    withoutCache (heap.hide away) cache = (withoutCache heap cache).hide away := by
  unfold withoutCache
  split
  · rfl
  · exact (Store.hide_erase heap away _).symm

/-- A block that is away is not the collected one. -/
theorem Beside.withoutCache_data (h : Beside away k) {b : ℕ} (hb : away b = true) :
    (withoutCache k.heap k.dev.entryCache).data b = k.heap.data b := by
  unfold withoutCache
  split
  · rfl
  · rename_i p hp
    have hne : b ≠ p := by
      intro heq
      have hseen := h.apart p (Kernel.mem_blocks_of_cache hp)
      rw [← heq, hb] at hseen
      cases hseen
    exact Store.data_erase_of_ne _ hne

theorem Beside.tmp_seen (h : Beside away k) {data head : List UInt8} {tmp : ℕ}
    {heap : Heap UInt8} (happ : Appended k.heap k.dev.entryCache data tmp head heap) :
    away tmp = false := by
  by_contra htmp
  have haway : away tmp = true := by simpa using htmp
  apply h.kept tmp haway
  rw [← h.withoutCache_data haway]
  exact happ.free

theorem Appended.hide {heap heap' : Heap UInt8} {cache : BufferEntry} {data head : List UInt8}
    {tmp : ℕ} (happ : Appended heap cache data tmp head heap') (htmp : away tmp = false) :
    Appended (heap.hide away) cache data tmp head (heap'.hide away) where
  free := by rw [withoutCache_hide, Store.data_hide_of_not _ htmp, happ.free]
  at_tmp := by rw [Store.data_hide_of_not _ htmp, happ.at_tmp]
  elsewhere b hb := by
    rw [withoutCache_hide, Store.data_hide, Store.data_hide, happ.elsewhere b hb]
  head_length := happ.head_length
  fits := happ.fits
  head_eq bytes hbytes := by
    apply happ.head_eq bytes
    rcases hbytes with hnone | ⟨hne, p, hcache, hp⟩
    · exact Or.inl hnone
    · exact Or.inr ⟨hne, p, hcache, Store.data_of_hide hp⟩

/-- The copy changes no block that is away. -/
theorem Beside.appended (h : Beside away k) {data head : List UInt8} {tmp : ℕ}
    {heap : Heap UInt8} (happ : Appended k.heap k.dev.entryCache data tmp head heap) (n : ℕ) :
    Beside away ⟨{ k.dev with entryCache := ⟨some tmp, n⟩ }, heap⟩ ∧
      ∀ b, away b = true → heap.data b = k.heap.data b := by
  have htmp := h.tmp_seen happ
  have hsame : ∀ b, away b = true → heap.data b = k.heap.data b := by
    intro b hb
    have hne : b ≠ tmp := by
      rintro rfl
      rw [hb] at htmp
      cases htmp
    rw [happ.elsewhere b hne, h.withoutCache_data hb]
  refine ⟨⟨?_, ?_, ?_⟩, hsame⟩
  · intro b hb
    rw [hsame b hb]
    exact h.kept b hb
  · intro b hb
    simp only [Kernel.blocks, List.mem_append, Option.mem_toList, Option.some.injEq] at hb
    rcases hb with rfl | hlive
    · exact htmp
    · exact h.apart b (List.mem_append_right _ hlive)
  · exact h.noStray.appended data head tmp _ (happ.hide htmp) n

theorem Holds.evicted_mem (h : Holds k es cmds) {q : ℕ}
    (hq : (k.dev.circularBuffer.addEntry k.dev.entryCache).2 = some q) : q ∈ k.blocks := by
  obtain ⟨hlen, e, he, hptr⟩ := h.evicted_block q hq
  exact (mem_blocks_iff h q).mpr (Or.inr ⟨es.length - 10, e, by omega, he, hptr⟩)

/-- The hand-over refers to no new block. -/
theorem Holds.handOver_blocks (h : Holds k es cmds) {k' : Kernel}
    (hk' : Driver.handOver k = some k') {b : ℕ} (hb : b ∈ k'.blocks) : b ∈ k.blocks := by
  obtain ⟨_, hring, hcache⟩ := handOver_eq_some hk'
  have hnext := h.tracks.addEntry k.dev.entryCache
  rw [Kernel.blocks, hring, hcache, List.mem_append] at hb
  rcases hb with hnone | hlive
  · cases hnone
  · obtain ⟨e, he, hptr⟩ := List.mem_filterMap.mp hlive
    obtain ⟨i, hi, hei⟩ := (hnext.mem_live_iff e).mp he
    rw [List.length_append, List.length_singleton] at hi
    by_cases hlt : i < es.length
    · rw [List.getElem?_append_left hlt] at hei
      exact (mem_blocks_iff h b).mpr (Or.inr ⟨i, e, by omega, hei, hptr⟩)
    · rw [List.getElem?_append_right (by omega)] at hei
      obtain ⟨_, hcached⟩ := List.getElem?_eq_some_iff.mp hei
      rw [List.getElem_singleton] at hcached
      exact Kernel.mem_blocks_of_cache (hcached ▸ hptr)

theorem Beside.handOver (h : Beside away k) (hholds : Holds k es cmds) {k' : Kernel}
    (hk' : Driver.handOver k = some k') :
    Beside away k' ∧ ∀ b, away b = true → k'.heap.data b = k.heap.data b := by
  have hevicted : ∀ q, (k.dev.circularBuffer.addEntry k.dev.entryCache).2 = some q →
      away q = false := fun q hq => h.apart q (hholds.evicted_mem hq)
  obtain ⟨hfree, _, _⟩ := handOver_eq_some hk'
  have hsame : ∀ b, away b = true → k'.heap.data b = k.heap.data b := by
    intro b hb
    have hne : (k.dev.circularBuffer.addEntry k.dev.entryCache).2 ≠ some b := by
      intro hq
      have hseen := hevicted b hq
      rw [hb] at hseen
      cases hseen
    rw [Heap.kfree_data hfree b, if_neg hne]
  have hhidden : Driver.handOver (k.hide away) = some (k'.hide away) := by
    obtain ⟨heap, hheap, rfl⟩ := Option.map_eq_some_iff.mp hk'
    have hfree' : Heap.kfree (k.hide away).heap ((k.hide away).dev.circularBuffer.addEntry
        (k.hide away).dev.entryCache).2 = some (heap.hide away) := by
      have hmap := Heap.kfree_hide k.heap away _ hevicted
      rw [hheap, Option.map_some] at hmap
      exact hmap
    rw [Driver.handOver, hfree']
    rfl
  refine ⟨⟨?_, ?_, ?_⟩, hsame⟩
  · intro b hb
    rw [hsame b hb]
    exact h.kept b hb
  · intro b hb
    exact h.apart b (hholds.handOver_blocks hk' hb)
  · exact h.noStray.handOver (hholds.hide h.apart) hhidden

/-- One write that copies its whole payload. -/
theorem Beside.write (h : Beside away k) (hholds : Holds k es cmds) (call : WriteCall)
    (hcopy : call.uncopied = 0) (r : WriteResult) (hr : aesdWrite k call = some r) :
    Beside away r.kernel ∧ ∀ b, away b = true → r.kernel.heap.data b = k.heap.data b := by
  cases aesdWrite_effect k call r hr with
  | refused errno hrefusal => exact ⟨h, fun _ _ => rfl⟩
  | faulted data head tmp heap hrefusal hfault happ => exact absurd hcopy hfault
  | appended bytes head tmp heap k' hpayload hne _ happ hcommit =>
    obtain ⟨hbeside, hsame⟩ := h.appended happ (head ++ bytes).length
    have hfits := happ.fits
    rw [commitEntry_eq _ tmp (head ++ bytes) rfl happ.at_tmp (by simp [hne])
      (by rw [List.length_append, happ.head_length]; exact hfits)] at hcommit
    split at hcommit
    · obtain ⟨hnext, hkept⟩ := hbeside.handOver (hholds.appended bytes head tmp heap happ) hcommit
      exact ⟨hnext, fun b hb => (hkept b hb).trans (hsame b hb)⟩
    · cases hcommit
      exact ⟨hbeside, hsame⟩

/-- The unload leaves the blocks that are away and the pending one. -/
theorem Beside.cleanup (h : Beside away k) (hholds : Holds k es cmds) {pending : List UInt8}
    (hcache : CacheHolds k.heap k.dev.entryCache pending) :
    ∃ k', aesdCleanupModule k = some k' ∧
      (∀ b, away b = true → k'.heap.data b = k.heap.data b) ∧
      ∀ b, k'.heap.data b ≠ none ↔ away b = true ∨ k.dev.entryCache.buffptr = some b := by
  obtain ⟨hidden, hrun, hleft⟩ :=
    (hholds.hide h.apart).cleanup h.noStray pending (hcache.hide h.apart)
  have hslots : ∀ i ∈ List.range maxWriteOperationsSupported, ∀ p,
      (k.dev.circularBuffer.slot i).buffptr = some p → away p = false := by
    intro i hi p hp
    have hlt : i < 10 := List.mem_range.mp hi
    by_cases hwritten : i < es.length
    · obtain ⟨n, hn, _, he⟩ := hholds.tracks.slot_written i hlt hwritten
      exact h.apart p ((mem_blocks_iff hholds p).mpr (Or.inr ⟨n, _, hn, he, hp⟩))
    · rw [hholds.tracks.untouched i (by omega) hlt] at hp
      cases hp
  obtain ⟨heap', hfrees, rfl⟩ := Option.map_eq_some_iff.mp hrun
  have hmap := Heap.run_kfree_hide (fun i => (k.dev.circularBuffer.slot i).buffptr) away k.heap
    (List.range maxWriteOperationsSupported) hslots
  obtain ⟨heap, hheap, rfl⟩ := Option.map_eq_some_iff.mp (hmap.symm.trans hfrees)
  have hsame := Heap.run_kfree_away hslots hheap
  refine ⟨_, by rw [aesdCleanupModule, hheap, Option.map_some], hsame, ?_⟩
  intro b
  cases hb : away b with
  | true =>
    simp only [true_or, iff_true]
    rw [hsame b hb]
    exact h.kept b hb
  | false =>
    have hhidden : (heap.hide away).data b ≠ none ↔ k.dev.entryCache.buffptr = some b := hleft b
    rw [Store.data_hide_of_not heap hb] at hhidden
    simpa using hhidden

/-- What is allocated beside a loaded device. -/
theorem Beside.allocated_iff (h : Beside away k) (hholds : Holds k es cmds)
    {pending : List UInt8} (hcache : CacheHolds k.heap k.dev.entryCache pending) (b : ℕ) :
    k.heap.data b ≠ none ↔ away b = true ∨ b ∈ k.blocks := by
  have howned := (hholds.hide h.apart).owned h.noStray pending (hcache.hide h.apart)
  have hblock : (k.hide away).heap.data b ≠ none ↔ b ∈ k.blocks := by
    rw [← Option.isSome_iff_ne_none]
    exact howned.allocated_iff b
  have hhide := k.heap.data_hide_ne_none_iff away b
  constructor
  · intro hb
    cases haway : away b with
    | true => exact Or.inl rfl
    | false => exact Or.inr (hblock.mp (hhide.mpr ⟨haway, hb⟩))
  · rintro (haway | hmem)
    · exact h.kept b haway
    · exact (hhide.mp (hblock.mpr hmem)).2

end Frame

end Aesd.Driver
