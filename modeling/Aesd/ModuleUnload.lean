import Aesd.BlockOwnership
import Aesd.Ledger

/-!
Unloading the module. The history of the allocator is written down call by call;
`aesd_cleanup_module` frees the block of every slot, whatever the rotation of the
ring, but not the block of a command that is not complete. So every block has been
released exactly once just when the last accepted write ended in a newline.
-/
namespace Aesd.Driver

open Ledger

/-- The allocator events of one `aesd_write`. A request that fails leaves none, and
`krealloc` is a release of the old block and an allocation of the new one. -/
def writeEvents (k : Kernel) (call : WriteCall) : List Event :=
  match call.refusal, call.buf with
  | none, some buf =>
      match copied k call buf with
      | none => []
      | some c =>
          let k' := collected k buf c
          freeEvents k.dev.entryCache.buffptr ++ [.alloc c.1] ++
            if call.uncopied ≠ 0 then freeEvents (some c.1)
            else if lastByte k'.heap k'.dev.entryCache = some newline then
              freeEvents (k'.dev.circularBuffer.addEntry k'.dev.entryCache).2
            else []
  | _, _ => []

def runEvents (k : Kernel) : List WriteCall → List Event
  | [] => []
  | call :: rest => writeEvents k call ++
      match aesdWrite k call with
      | none => []
      | some r => runEvents r.kernel rest

def cleanupEvents (k : Kernel) : List Event :=
  (List.range maxWriteOperationsSupported).flatMap
    (fun index => freeEvents (k.dev.circularBuffer.slot index).buffptr)

/-- The events of a write lead from the blocks before it to those after it. -/
theorem run_writeEvents (k : Kernel) (call : WriteCall) (r : WriteResult)
    (h : aesdWrite k call = some r) :
    Runs.run apply (held k.heap) (writeEvents k call) = some (held r.kernel.heap) := by
  unfold writeEvents
  cases hrefusal : call.refusal with
  | some errno =>
    rcases aesdWrite_refusal_cases k call errno hrefusal with hsome | ⟨hnone, _⟩
    · cases hsome.symm.trans h
      rfl
    · cases hnone.symm.trans h
  | none =>
    obtain ⟨_, _, _, buf, hbuf, _⟩ := (refusal_eq_none_iff call).mp hrefusal
    rw [aesdWrite_eq_copied k call buf hrefusal hbuf, Option.bind_eq_some_iff] at h
    obtain ⟨c, hcopied, h⟩ := h
    obtain ⟨head, happ⟩ := copied_appended k call buf c hcopied
    have hgrow : Runs.run apply (held k.heap)
        (freeEvents k.dev.entryCache.buffptr ++ [.alloc c.1]) = some (held c.2) := by
      rw [Runs.run_append, run_freeEvents (kfree_pending hcopied), Option.bind_some]
      exact run_alloc happ.free (by simp [happ.at_tmp]) happ.elsewhere
    simp only [hbuf, hcopied]
    rw [Runs.run_append, hgrow, Option.bind_some]
    by_cases hcopy : call.uncopied = 0
    · rw [if_neg (by simpa using hcopy)] at h ⊢
      obtain ⟨k', hcommit, rfl⟩ := Option.map_eq_some_iff.mp h
      obtain ⟨last, hlast, hcommit⟩ := Option.bind_eq_some_iff.mp hcommit
      simp only [hlast, Option.some.injEq]
      by_cases hnewline : last = newline
      · rw [if_pos hnewline] at hcommit ⊢
        exact run_freeEvents (handOver_eq_some hcommit).1
      · rw [if_neg hnewline] at hcommit ⊢
        cases hcommit
        rfl
    · rw [if_pos hcopy] at h ⊢
      obtain ⟨freed, hfreed, rfl⟩ := Option.map_eq_some_iff.mp h
      exact run_freeEvents hfreed

theorem run_runEvents (k : Kernel) (calls : List WriteCall) (k' : Kernel)
    (h : runWrites k calls = some k') :
    Runs.run apply (held k.heap) (runEvents k calls) = some (held k'.heap) := by
  induction calls generalizing k with
  | nil =>
    cases h
    rfl
  | cons call rest ih =>
    obtain ⟨next, hnext, hrest⟩ := Option.bind_eq_some_iff.mp h
    obtain ⟨r, hr, rfl⟩ := Option.map_eq_some_iff.mp hnext
    rw [runEvents, Runs.run_append, run_writeEvents k call r hr, Option.bind_some, hr]
    exact ih r.kernel hrest

theorem run_cleanupEvents (k k' : Kernel) (h : aesdCleanupModule k = some k') :
    Runs.run apply (held k.heap) (cleanupEvents k) = some (held k'.heap) := by
  obtain ⟨heap, hrun, rfl⟩ := Option.map_eq_some_iff.mp h
  exact run_freeEvents_all _ hrun

/-- After the writes `calls` the unload frees only allocated blocks, leaves none,
and every block has been released exactly once. -/
def UnloadsClean (calls : List WriteCall) (k : Kernel) : Prop :=
  ∃ k', aesdCleanupModule k = some k' ∧ k'.heap.IsEmpty ∧
    FreedOnce (runEvents aesdInitModule calls ++ cleanupEvents k)

/-- The unload frees the blocks of all slots; the pending one stays. -/
theorem Holds.cleanup {k : Kernel} {es : List BufferEntry} {cmds : List (List UInt8)}
    (h : Holds k es cmds) (hstray : NoStray k) (pending : List UInt8)
    (hcache : CacheHolds k.heap k.dev.entryCache pending) :
    ∃ k', aesdCleanupModule k = some k' ∧
      ∀ b, k'.heap.data b ≠ none ↔ k.dev.entryCache.buffptr = some b := by
  have hslot : ∀ i < 10, ∀ b, (k.dev.circularBuffer.slot i).buffptr = some b →
      ∃ n, n % 10 = i ∧ es.length ≤ n + 10 ∧
        es[n]? = some (k.dev.circularBuffer.slot i) := by
    intro i hi b hb
    by_cases hlt : i < es.length
    · obtain ⟨n, hn, hmod, he⟩ := h.tracks.slot_written i hi hlt
      exact ⟨n, hmod, hn, he⟩
    · rw [h.tracks.untouched i (by omega) hi] at hb
      cases hb
  have howned := h.owned hstray pending hcache
  obtain ⟨heap, hrun, hheap⟩ := run_kfree_defined
    (fun index => (k.dev.circularBuffer.slot index).buffptr) k.heap
    (List.range maxWriteOperationsSupported) (by
      intro i hi b hb
      obtain ⟨n, _, hn, he⟩ := hslot i (List.mem_range.mp hi) b hb
      exact (h.live_block n b _ hn he hb).2) (by
      apply List.pairwise_lt_range.imp_of_mem
      intro i j hi hj hlt b hb hb'
      obtain ⟨n, hni, hn, hen⟩ := hslot i (List.mem_range.mp hi) b hb
      obtain ⟨m, hmj, hm, hem⟩ := hslot j (List.mem_range.mp hj) b hb'
      have hsame := h.distinct n m _ _ hn hm hen hem (hb.trans hb'.symm)
      omega)
  refine ⟨_, by rw [aesdCleanupModule, hrun, Option.map_some], ?_⟩
  intro b
  rw [hheap b]
  constructor
  · intro hleft
    rcases (mem_blocks_iff h b).mp (hstray b hleft.1) with hcached | ⟨i, e, hi, he, hptr⟩
    · exact hcached
    · exfalso
      obtain ⟨hlt, heq⟩ := List.getElem?_eq_some_iff.mp he
      have hstored := h.tracks.stored i hlt hi
      apply hleft.2 (i % 10) (List.mem_range.mpr (Nat.mod_lt i (by decide)))
      rw [hstored, heq, hptr]
  · intro hcached
    constructor
    · rw [← Option.isSome_iff_ne_none, howned.allocated_iff, mem_blocks_iff h]
      exact Or.inl hcached
    · intro i hi hb
      obtain ⟨n, _, hn, he⟩ := hslot i (List.mem_range.mp hi) b hb
      exact h.apart n _ hn he (hb.trans hcached.symm)

/-- The last accepted write, if there was one, ended in a newline. -/
def LastEndsLine (calls : List WriteCall) : Prop :=
  ∀ data, (payloads calls).getLast? = some data → data.getLast? = some newline

theorem payload_ne_nil (call : WriteCall) (data : List UInt8) (h : call.payload = some data) :
    data ≠ [] := by
  cases hrefusal : call.refusal with
  | some errno => simp [WriteCall.payload, hrefusal] at h
  | none =>
    obtain ⟨_, _, _, buf, hbuf, hcount⟩ := (refusal_eq_none_iff call).mp hrefusal
    simp only [WriteCall.payload, hrefusal, hbuf, Option.map_some, Option.some.injEq] at h
    intro hnil
    exact hcount (by rw [UserBuf.count, h, hnil, List.length_nil])

theorem pending_eq_nil_iff (calls : List WriteCall) :
    (logOf calls).pending = [] ↔ LastEndsLine calls := by
  induction calls using List.reverseRecOn with
  | nil => simp [logOf, payloads, CommandLog.ofPayloads, CommandLog.empty, LastEndsLine]
  | append_singleton calls call ih =>
    cases hpayload : call.payload with
    | none =>
      rw [logOf_concat_of_none calls call hpayload, ih]
      simp [LastEndsLine, payloads, hpayload]
    | some data =>
      have hne := payload_ne_nil call data hpayload
      have hlast : LastEndsLine (calls ++ [call]) ↔ data.getLast? = some newline := by
        simp [LastEndsLine, payloads, hpayload]
      rw [logOf_concat_of_some calls call data hpayload, hlast, CommandLog.append]
      split
      · rename_i hnewline
        simp [hnewline]
      · rename_i hnewline
        simp [hnewline, hne]

/-- Writes that copy their whole payload never release a block that is not there,
nor does the unload after them; it releases everything that is left, if and only if
no command was left incomplete. -/
theorem unload_clean_iff (calls : List WriteCall)
    (hcopy : ∀ call ∈ calls, call.uncopied = 0) :
    ((logOf calls).Fits → ∃ k, runWrites aesdInitModule calls = some k) ∧
      ∀ k, runWrites aesdInitModule calls = some k →
        (∃ k', aesdCleanupModule k = some k') ∧ (UnloadsClean calls k ↔ LastEndsLine calls) := by
  refine ⟨runWrites_defined calls hcopy, ?_⟩
  intro k hrun
  obtain ⟨⟨⟨es, hholds⟩, hcache⟩, _⟩ := refines_of_run calls k hcopy hrun
  obtain ⟨k', hk', hleft⟩ := hholds.cleanup (noStray_of_run calls k hcopy hrun) _ hcache
  have hevents : Runs.run apply (fun _ => false)
      (runEvents aesdInitModule calls ++ cleanupEvents k) = some (held k'.heap) := by
    rw [Runs.run_append]
    have hwrites := run_runEvents aesdInitModule calls k hrun
    rw [show held aesdInitModule.heap = fun _ => false from rfl] at hwrites
    rw [hwrites, Option.bind_some, run_cleanupEvents k k' hk']
  have hempty : k'.heap.IsEmpty ↔ k.dev.entryCache.buffptr = none := by
    constructor
    · intro hnone
      rw [Option.eq_none_iff_forall_ne_some]
      intro b hb
      exact (hleft b).mpr hb (hnone b)
    · intro hnull b
      by_contra hb
      have hcached := (hleft b).mp hb
      rw [hnull] at hcached
      cases hcached
  have hpending : k.dev.entryCache.buffptr = none ↔ LastEndsLine calls := by
    rw [← pending_eq_nil_iff]
    rcases hcache with ⟨hnil, hentry⟩ | ⟨hne, p, hentry, _⟩
    · simp [hnil, hentry]
    · simp [hne, hentry]
  refine ⟨⟨k', hk'⟩, ?_⟩
  constructor
  · intro hclean
    obtain ⟨k'', hk'', hnone, _⟩ := hclean
    cases Option.some.inj (hk'.symm.trans hk'')
    exact hpending.mp (hempty.mp hnone)
  · intro hline
    have hnone := hempty.mpr (hpending.mpr hline)
    refine ⟨k', hk', hnone, (freedOnce_iff hevents).mpr ?_⟩
    intro b
    rw [held, hnone b, Option.isSome_none]

/-- Eleven commands, the last one in two writes, leave nothing behind. -/
theorem unload_clean_sample :
    ∃ k, runWrites aesdInitModule (List.replicate 10 (.granted ⟨[97, 10], by decide⟩ 0) ++
        [.granted ⟨[98], by decide⟩ 3, .granted ⟨[10], by decide⟩ 40]) = some k ∧
      UnloadsClean (List.replicate 10 (.granted ⟨[97, 10], by decide⟩ 0) ++
        [.granted ⟨[98], by decide⟩ 3, .granted ⟨[10], by decide⟩ 40]) k := by
  obtain ⟨k, hk⟩ := Option.isSome_iff_exists.mp (show (runWrites aesdInitModule
    (List.replicate 10 (.granted ⟨[97, 10], by decide⟩ 0) ++
      [.granted ⟨[98], by decide⟩ 3, .granted ⟨[10], by decide⟩ 40])).isSome = true by decide)
  refine ⟨k, hk, ((unload_clean_iff _ (by decide)).2 k hk).2.mpr ?_⟩
  intro data hdata
  cases hdata
  decide

/-- One byte without a newline: its block is still allocated after the unload. -/
theorem unload_leaks_pending :
    ∃ calls k k', (∀ call ∈ calls, call.uncopied = 0) ∧
      runWrites aesdInitModule calls = some k ∧ aesdCleanupModule k = some k' ∧
      k'.heap.data 0 = some [97] ∧ ¬ UnloadsClean calls k := by
  have hvals : ((runWrites aesdInitModule [.granted ⟨[97], by decide⟩ 0]).bind
      aesdCleanupModule).map (fun k' => k'.heap.data 0) = some (some [97]) := by decide
  obtain ⟨k', hk', hdata⟩ := Option.map_eq_some_iff.mp hvals
  obtain ⟨k, hk, hclean⟩ := Option.bind_eq_some_iff.mp hk'
  refine ⟨_, k, k', by decide, hk, hclean, hdata, ?_⟩
  intro hunload
  obtain ⟨k'', hk'', hempty, _⟩ := hunload
  cases Option.some.inj (hclean.symm.trans hk'')
  cases (hempty 0).symm.trans hdata

end Aesd.Driver
