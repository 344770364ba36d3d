import Aesd.CommandLog

/-!
Writes that fail. A refused call leaves the device as it was. A call that faults
while copying frees the block it has just obtained: on an empty cache this undoes
the allocation, but with a command pending that block is the enlarged pending one,
and the cache keeps pointing to it.
-/
namespace Aesd.Driver

/-- The call gets its block, but `copy_from_user` fails. -/
def WriteCall.Faults (call : WriteCall) : Prop := call.refusal = none ∧ call.uncopied ≠ 0

/-- A fault does not meet a pending command. -/
def FaultsOnEmpty (k : Kernel) (call : WriteCall) : Prop :=
  call.Faults → k.dev.entryCache.buffptr = none

instance (k : Kernel) (call : WriteCall) : Decidable (FaultsOnEmpty k call) :=
  inferInstanceAs (Decidable (call.refusal = none ∧ call.uncopied ≠ 0 →
    k.dev.entryCache.buffptr = none))

/-- One write of a run, seen from the kernel state. -/
def writeStep (k : Kernel) (call : WriteCall) : Option Kernel :=
  (aesdWrite k call).map WriteResult.kernel

/-- What a reader or the next writer can see of the device, and the file position,
are the same after the call, and the pending pointer is still good. -/
structure Unchanged (k : Kernel) (call : WriteCall) (r : WriteResult) : Prop where
  pending : r.kernel.bytesOf r.kernel.dev.entryCache = k.bytesOf k.dev.entryCache
  size : r.kernel.dev.entryCache.size = k.dev.entryCache.size
  live : r.kernel.dev.circularBuffer.live.map r.kernel.bytesOf =
    k.dev.circularBuffer.live.map k.bytesOf
  bufferSize : r.kernel.dev.bufferSize = k.dev.bufferSize
  fPos : r.fPos = call.fPos
  allocated : ∀ p, r.kernel.dev.entryCache.buffptr = some p → r.kernel.heap.data p ≠ none

/-- The bytes `data` have been put behind `pending`: into the newest command if they
end it, otherwise into the cache. -/
def Continues (k : Kernel) (pending data : List UInt8) : Prop :=
  if data.getLast? = some newline then
    (k.dev.circularBuffer.live.map k.bytesOf).getLast? = some (some (pending ++ data)) ∧
      k.bytesOf k.dev.entryCache = some []
  else k.bytesOf k.dev.entryCache = some (pending ++ data)

/-- The cache points to a block that has been freed. -/
def Dangling (k : Kernel) : Prop :=
  ∃ p, k.dev.entryCache.buffptr = some p ∧ k.heap.data p = none

theorem cacheHolds_of_null {heap heap' : Heap UInt8} {cache : BufferEntry} {bytes : List UInt8}
    (h : CacheHolds heap cache bytes) (hnull : cache.buffptr = none) :
    CacheHolds heap' cache bytes := by
  rcases h with hnil | ⟨_, p, hentry, _⟩
  · exact Or.inl hnil
  · rw [hentry] at hnull
    cases hnull

theorem CacheHolds.allocated {heap : Heap UInt8} {cache : BufferEntry} {bytes : List UInt8}
    (h : CacheHolds heap cache bytes) (p : ℕ) (hp : cache.buffptr = some p) :
    heap.data p ≠ none := by
  rcases h with ⟨_, hentry⟩ | ⟨_, q, hentry, hq⟩
  · rw [hentry] at hp
    cases hp
  · rw [hentry] at hp
    cases hp
    simp [hq]

section Faults

variable {k : Kernel} {log : CommandLog} {call : WriteCall} {r : WriteResult}

/-- A fault on an empty cache undoes its own allocation and nothing else. -/
theorem Refines.faulted (h : Refines k log) (hnull : k.dev.entryCache.buffptr = none)
    (data head : List UInt8) (tmp : ℕ) (heap : Heap UInt8)
    (happ : Appended k.heap k.dev.entryCache data tmp head heap) :
    Refines { k with heap := heap.erase tmp } log := by
  obtain ⟨⟨es, hholds⟩, hcache⟩ := h
  exact ⟨⟨es, hholds.faulted data head tmp heap happ⟩, cacheHolds_of_null hcache hnull⟩

theorem Refines.step (h : Refines k log) (hfits : log.Fits) (hsafe : FaultsOnEmpty k call)
    (hr : aesdWrite k call = some r) : ∃ log', Refines r.kernel log' ∧ log'.Fits := by
  cases aesdWrite_effect k call r hr with
  | refused errno hrefusal => exact ⟨log, h, hfits⟩
  | faulted data head tmp heap hrefusal hfault happ =>
    exact ⟨log, h.faulted (hsafe ⟨hrefusal, hfault⟩) data head tmp heap happ, hfits⟩
  | appended bytes head tmp heap k' hpayload hne hcopy happ hcommit =>
    obtain ⟨_, hlt, hnext⟩ := (h.effect call hcopy _ hr).1 bytes hpayload
    exact ⟨_, hnext, hfits.append bytes hlt⟩

/-- After a fault with a command pending the cache dangles. -/
theorem dangling_of_fault (hfault : call.Faults) (hpending : k.dev.entryCache.buffptr ≠ none)
    (hr : aesdWrite k call = some r) : Dangling r.kernel := by
  obtain ⟨p, hp⟩ := Option.ne_none_iff_exists'.mp hpending
  cases aesdWrite_effect k call r hr with
  | refused errno hrefusal =>
    rw [hfault.1] at hrefusal
    cases hrefusal
  | faulted data head tmp heap hrefusal _ happ =>
    refine ⟨p, hp, ?_⟩
    by_cases htmp : p = tmp
    · rw [htmp]
      exact Store.data_erase_self ..
    · rw [Store.data_erase_of_ne _ htmp, happ.elsewhere p htmp]
      simp [withoutCache, hp]
  | appended bytes head tmp heap k' hpayload hne hcopy happ hcommit =>
    exact absurd hcopy hfault.2

/-- With a dangling cache only refused calls have a result. -/
theorem Dangling.refusal_ne (h : Dangling k) (hr : aesdWrite k call = some r) :
    call.refusal ≠ none := by
  obtain ⟨p, hp, hfreed⟩ := h
  intro hrefusal
  obtain ⟨_, _, _, buf, hbuf, _⟩ := (refusal_eq_none_iff call).mp hrefusal
  rw [aesdWrite_eq_copied k call buf hrefusal hbuf, Option.bind_eq_some_iff] at hr
  obtain ⟨c, hcopied, _⟩ := hr
  have hfree := kfree_pending hcopied
  simp [Heap.kfree, hp, hfreed] at hfree

theorem Dangling.refused (h : Dangling k) (hr : aesdWrite k call = some r) : r.kernel = k := by
  obtain ⟨errno, hrefusal⟩ := Option.ne_none_iff_exists'.mp (h.refusal_ne hr)
  rcases aesdWrite_refusal_cases k call errno hrefusal with hsome | ⟨hnone, _⟩
  · cases hsome.symm.trans hr
    rfl
  · cases hnone.symm.trans hr

end Faults

/-- A run in which no fault met a pending command has lost nothing; after any
other run the cache dangles. -/
theorem refines_or_dangling (calls : List WriteCall) (k : Kernel)
    (hrun : runWrites aesdInitModule calls = some k) :
    (Runs.Meets writeStep FaultsOnEmpty aesdInitModule calls ∧
        ∃ log, Refines k log ∧ log.Fits) ∨
      (¬ Runs.Meets writeStep FaultsOnEmpty aesdInitModule calls ∧ Dangling k) := by
  induction calls using List.reverseRecOn generalizing k with
  | nil =>
    cases hrun
    exact Or.inl ⟨Runs.meets_nil _, _, refines_init, CommandLog.fits_empty⟩
  | append_singleton calls call ih =>
    obtain ⟨before, hbefore, hlast⟩ := (Runs.run_concat_eq_some calls call).mp hrun
    obtain ⟨r, hr, rfl⟩ := Option.map_eq_some_iff.mp hlast
    rcases ih before hbefore with ⟨hmeets, log, hrefines, hfits⟩ | ⟨hmeets, hdangling⟩
    · by_cases hsafe : FaultsOnEmpty before call
      · refine Or.inl ⟨hmeets.concat ?_, hrefines.step hfits hsafe hr⟩
        intro u hu
        cases Option.some.inj (hbefore.symm.trans hu)
        exact hsafe
      · refine Or.inr ⟨fun hall => hsafe (hall.last hbefore), ?_⟩
        have hboth : call.Faults ∧ before.dev.entryCache.buffptr ≠ none := by
          simpa [FaultsOnEmpty] using hsafe
        exact dangling_of_fault hboth.1 hboth.2 hr
    · refine Or.inr ⟨fun hall => hmeets hall.init, ?_⟩
      rw [hdangling.refused hr]
      exact hdangling

/-- A device without a pending command keeps its closed commands, whatever writes and
failures led to it. -/
theorem exists_refines_idle (calls : List WriteCall) (k : Kernel)
    (hrun : runWrites aesdInitModule calls = some k)
    (hidle : k.dev.entryCache.buffptr = none) :
    ∃ closed, Refines k ⟨closed, []⟩ ∧ CommandLog.Fits ⟨closed, []⟩ := by
  rcases refines_or_dangling calls k hrun with ⟨_, log, hrefines, hfits⟩ | ⟨_, p, hp, _⟩
  · have hnil : log.pending = [] := by
      rcases hrefines.2 with ⟨hnil, _⟩ | ⟨_, p, hcache, _⟩
      · exact hnil
      · rw [hcache] at hidle
        cases hidle
    obtain ⟨closed, pending⟩ := log
    subst hnil
    exact ⟨closed, hrefines, hfits⟩
  · rw [hidle] at hp
    cases hp

/-- Every list of lines is the content of some device. -/
theorem exists_device (cmds : List (List UInt8))
    (hlines : ∀ cmd ∈ cmds, cmd.getLast? = some newline ∧ cmd.length < 2 ^ 63) :
    ∃ calls k, runWrites aesdInitModule calls = some k ∧ Refines k ⟨cmds, []⟩ := by
  induction cmds using List.reverseRecOn with
  | nil => exact ⟨[], aesdInitModule, rfl, refines_init⟩
  | append_singleton cmds cmd ih =>
    obtain ⟨calls, k, hrun, hrefines⟩ := ih (fun c hc => hlines c (List.mem_append_left _ hc))
    obtain ⟨hlast, hlt⟩ := hlines cmd (by simp)
    have hne : cmd ≠ [] := by
      intro hnil
      simp [hnil] at hlast
    have hpayload : (WriteCall.granted ⟨cmd, hlt⟩ 0).payload = some cmd :=
      payload_eq_some _ ⟨cmd, hlt⟩ rfl rfl rfl (Option.some_ne_none 0) hne
    obtain ⟨r, hr⟩ := hrefines.defined (.granted ⟨cmd, hlt⟩ 0) rfl (by
      intro data hdata
      cases Option.some.inj (hpayload.symm.trans hdata)
      rw [List.length_nil]
      omega)
    have hnext := ((hrefines.effect _ rfl r hr).1 cmd hpayload).2.2
    rw [CommandLog.append, if_pos hlast, List.nil_append] at hnext
    exact ⟨_, r.kernel, (Runs.run_concat_eq_some calls _).mpr
      ⟨k, hrun, by rw [hr, Option.map_some]⟩, hnext⟩

section Failures

variable {k : Kernel} {log : CommandLog} {call : WriteCall} {r : WriteResult}

/-- A failing call that does not fault on a pending command changes nothing. -/
theorem Refines.unchanged (h : Refines k log) (hsafe : FaultsOnEmpty k call)
    (hr : aesdWrite k call = some r) (hneg : r.retval < 0) :
    Unchanged k call r ∧ Refines r.kernel log := by
  cases aesdWrite_effect k call r hr with
  | refused errno hrefusal =>
    exact ⟨⟨rfl, rfl, rfl, rfl, rfl, h.2.allocated⟩, h⟩
  | faulted data head tmp heap hrefusal hfault happ =>
    have hnull := hsafe ⟨hrefusal, hfault⟩
    have hafter := h.faulted hnull data head tmp heap happ
    refine ⟨⟨?_, rfl, ?_, rfl, rfl, hafter.2.allocated⟩, hafter⟩
    · rw [(cacheHolds_bytes _ _ hafter.2).1, (cacheHolds_bytes k _ h.2).1]
    · obtain ⟨⟨es, hholds⟩, _⟩ := h
      obtain ⟨⟨es', hholds'⟩, _⟩ := hafter
      exact hholds'.shows.liveCommands.trans hholds.shows.liveCommands.symm
  | appended bytes head tmp heap k' hpayload hne hcopy happ hcommit =>
    simp only at hneg
    omega

theorem Refines.continues (h : Refines k log) (hcopy : call.uncopied = 0) (data : List UInt8)
    (hpayload : call.payload = some data) (hr : aesdWrite k call = some r) :
    Continues r.kernel log.pending data := by
  obtain ⟨⟨es, hholds⟩, hcache⟩ := ((h.effect call hcopy r hr).1 data hpayload).2.2
  have hbytes := (cacheHolds_bytes _ _ hcache).1
  have hlive := hholds.shows.liveCommands
  unfold Continues
  unfold CommandLog.append at hbytes hlive
  split
  · rename_i hlast
    rw [if_pos hlast] at hbytes hlive
    refine ⟨?_, hbytes⟩
    rw [hlive, List.rtake_concat_succ, List.map_append, List.map_singleton,
      List.getLast?_concat]
  · rename_i hlast
    rw [if_neg hlast] at hbytes
    exact hbytes

end Failures

/-- In every state reached by writes, a failing write leaves the device as it was if
and only if neither it nor a write before it has faulted with a command pending; the
next write that succeeds then appends to the same bytes. -/
theorem failed_write_unchanged_iff (calls : List WriteCall) (k : Kernel) (call : WriteCall)
    (r : WriteResult) (hrun : runWrites aesdInitModule calls = some k)
    (hr : aesdWrite k call = some r) (hneg : r.retval < 0) :
    (Unchanged k call r ↔ Runs.Meets writeStep FaultsOnEmpty aesdInitModule (calls ++ [call])) ∧
      (Unchanged k call r → ∃ pending, k.bytesOf k.dev.entryCache = some pending ∧
        ∀ next r' data, next.uncopied = 0 → next.payload = some data →
          aesdWrite r.kernel next = some r' → Continues r'.kernel pending data) := by
  have hall : runWrites aesdInitModule (calls ++ [call]) = some r.kernel :=
    (Runs.run_concat_eq_some calls call).mpr ⟨k, hrun, by rw [hr, Option.map_some]⟩
  have hiff : Unchanged k call r ↔
      Runs.Meets writeStep FaultsOnEmpty aesdInitModule (calls ++ [call]) := by
    constructor
    · intro hkept
      rcases refines_or_dangling _ _ hall with hmeets | ⟨_, p, hp, hfreed⟩
      · exact hmeets.1
      · exact absurd hfreed (hkept.allocated p hp)
    · intro hmeets
      rcases refines_or_dangling _ _ hrun with ⟨_, log, hrefines, _⟩ | ⟨hnot, _⟩
      · exact (hrefines.unchanged (hmeets.last hrun) hr hneg).1
      · exact absurd hmeets.init hnot
  refine ⟨hiff, ?_⟩
  intro hkept
  have hmeets := hiff.mp hkept
  rcases refines_or_dangling _ _ hrun with ⟨_, log, hrefines, _⟩ | ⟨hnot, _⟩
  · refine ⟨log.pending, (cacheHolds_bytes k _ hrefines.2).1, ?_⟩
    intro next r' data hcopy hpayload hr'
    exact (hrefines.unchanged (hmeets.last hrun) hr hneg).2.continues hcopy data hpayload hr'
  · exact absurd hmeets.init hnot

/-- A fault right after a complete command changes nothing. -/
theorem failed_write_after_line :
    ∃ k r, runWrites aesdInitModule [.granted ⟨[97, 10], by decide⟩ 3] = some k ∧
      aesdWrite k { WriteCall.granted ⟨[98], by decide⟩ 5 with uncopied := 1 } = some r ∧
      r.retval = -EFAULT ∧
      Unchanged k { WriteCall.granted ⟨[98], by decide⟩ 5 with uncopied := 1 } r := by
  have hvals : ((runWrites aesdInitModule [.granted ⟨[97, 10], by decide⟩ 3]).bind
      (fun k => aesdWrite k { WriteCall.granted ⟨[98], by decide⟩ 5 with uncopied := 1 })).map
        WriteResult.retval = some (-EFAULT) := by decide
  obtain ⟨r, hr, hret⟩ := Option.map_eq_some_iff.mp hvals
  obtain ⟨k, hk, hr⟩ := Option.bind_eq_some_iff.mp hr
  refine ⟨k, r, hk, hr, hret, (failed_write_unchanged_iff _ k _ r hk hr ?_).1.mpr (by decide)⟩
  rw [hret]
  decide

/-- The byte "a" is pending when the next write faults: afterwards the cache has its
size and its pointer, but the block behind the pointer is gone. -/
theorem failed_write_loses_pending :
    ∃ calls k call r, runWrites aesdInitModule calls = some k ∧ aesdWrite k call = some r ∧
      r.retval = -EFAULT ∧ k.bytesOf k.dev.entryCache = some [97] ∧
      r.kernel.dev.entryCache = ⟨some 3, 1⟩ ∧ r.kernel.heap.data 3 = none ∧
      ¬ Unchanged k call r := by
  have hvals : ((runWrites aesdInitModule [.granted ⟨[97], by decide⟩ 3]).bind (fun k =>
      (aesdWrite k { WriteCall.granted ⟨[98], by decide⟩ 5 with uncopied := 1 }).map
        (fun r => (k, r)))).map (fun kr => (kr.2.retval, kr.1.bytesOf kr.1.dev.entryCache,
          kr.2.kernel.dev.entryCache, kr.2.kernel.heap.data 3)) =
      some (-EFAULT, some [97], ⟨some 3, 1⟩, none) := by decide
  obtain ⟨kr, hkr, hvals⟩ := Option.map_eq_some_iff.mp hvals
  obtain ⟨k, hk, hkr⟩ := Option.bind_eq_some_iff.mp hkr
  obtain ⟨r, hr, rfl⟩ := Option.map_eq_some_iff.mp hkr
  simp only [Prod.mk.injEq] at hvals
  obtain ⟨hret, hbytes, hcache, hfreed⟩ := hvals
  refine ⟨_, k, _, r, hk, hr, hret, hbytes, hcache, hfreed, ?_⟩
  intro hkept
  exact hkept.allocated 3 (by rw [hcache]) hfreed

end Aesd.Driver
