import Aesd.DeviceContent

/-!
The purpose of the write path, stated without slots, blocks or indices: payloads
are collected into commands, a command is closed by a payload that ends in a
newline, and the device keeps the ten newest closed commands and the bytes of
the open one. Every run of writes that copy their whole payload refines this.
-/
namespace Aesd.Driver

/-- All closed commands, oldest first, and the bytes not closed yet. -/
structure CommandLog where
  closed : List (List UInt8)
  pending : List UInt8

namespace CommandLog

def empty : CommandLog := ⟨[], []⟩

def append (log : CommandLog) (payload : List UInt8) : CommandLog :=
  if payload.getLast? = some newline then ⟨log.closed ++ [log.pending ++ payload], []⟩
  else ⟨log.closed, log.pending ++ payload⟩

def ofPayloads (payloads : List (List UInt8)) : CommandLog := payloads.foldl append empty

/-- All sizes fit in `size_t`. -/
def Fits (log : CommandLog) : Prop :=
  (∀ cmd ∈ log.closed, cmd.length < 2 ^ 64) ∧ log.pending.length < 2 ^ 64

theorem append_of_notMem (log : CommandLog) {payload : List UInt8} (h : newline ∉ payload) :
    log.append payload = ⟨log.closed, log.pending ++ payload⟩ := by
  rw [append, if_neg]
  intro hlast
  exact h (List.mem_of_getLast? hlast)

/-- Closed commands stay, whatever is written later. -/
theorem closed_kept (log : CommandLog) (payloads : List (List UInt8)) :
    log.closed <+: (payloads.foldl append log).closed := by
  induction payloads generalizing log with
  | nil => exact List.prefix_rfl
  | cons payload rest ih =>
    have hfirst : log.closed <+: (log.append payload).closed := by
      unfold append
      split
      · exact List.prefix_append _ _
      · exact List.prefix_rfl
    exact hfirst.trans (ih (log.append payload))

theorem fits_empty : empty.Fits := by
  simp [Fits, empty]

theorem Fits.of_append (log : CommandLog) (payload : List UInt8)
    (h : (log.append payload).Fits) :
    log.Fits ∧ log.pending.length + payload.length < 2 ^ 64 := by
  unfold append at h
  split at h
  · have hlast := h.1 (log.pending ++ payload) (by simp)
    rw [List.length_append] at hlast
    exact ⟨⟨fun cmd hcmd => h.1 cmd (by simp [hcmd]), by omega⟩, hlast⟩
  · have hlast := h.2
    simp only [List.length_append] at hlast
    exact ⟨⟨h.1, by omega⟩, hlast⟩

theorem Fits.append {log : CommandLog} (h : log.Fits) (payload : List UInt8)
    (hlt : log.pending.length + payload.length < 2 ^ 64) : (log.append payload).Fits := by
  unfold CommandLog.append
  split
  · refine ⟨?_, by simp⟩
    intro cmd hcmd
    rcases List.mem_append.mp hcmd with hold | hnew
    · exact h.1 cmd hold
    · rw [List.mem_singleton.mp hnew, List.length_append]
      exact hlt
  · exact ⟨h.1, by rw [List.length_append]; exact hlt⟩

end CommandLog

/-- The payloads that the calls of a run add to the device, in order. -/
def payloads (calls : List WriteCall) : List (List UInt8) := calls.filterMap WriteCall.payload

namespace CommandLog

/-- The log after more calls. -/
def after (log : CommandLog) (calls : List WriteCall) : CommandLog :=
  (payloads calls).foldl append log

theorem after_append (log : CommandLog) (done rest : List WriteCall) :
    log.after (done ++ rest) = (log.after done).after rest := by
  simp [after, payloads]

theorem after_of_none (log : CommandLog) {call : WriteCall} (h : call.payload = none) :
    log.after [call] = log := by
  simp [after, payloads, h]

theorem after_of_some (log : CommandLog) {call : WriteCall} {data : List UInt8}
    (h : call.payload = some data) : log.after [call] = log.append data := by
  simp [after, payloads, h]

/-- Sizes that fit at the end have fitted before. -/
theorem fits_of_after (log : CommandLog) (calls : List WriteCall) (h : (log.after calls).Fits) :
    log.Fits := by
  induction calls using List.reverseRecOn with
  | nil => exact h
  | append_singleton calls call ih =>
    rw [after_append] at h
    cases hpayload : call.payload with
    | none =>
      rw [after_of_none _ hpayload] at h
      exact ih h
    | some data =>
      rw [after_of_some _ hpayload] at h
      exact ih (Fits.of_append _ _ h).1

end CommandLog

/-- The command log of a run of writes. -/
def logOf (calls : List WriteCall) : CommandLog := CommandLog.ofPayloads (payloads calls)

theorem logOf_append (done rest : List WriteCall) :
    logOf (done ++ rest) = (logOf done).after rest :=
  CommandLog.after_append .empty done rest

theorem logOf_concat_of_none (calls : List WriteCall) (call : WriteCall)
    (h : call.payload = none) : logOf (calls ++ [call]) = logOf calls := by
  rw [logOf_append, CommandLog.after_of_none _ h]

theorem logOf_concat_of_some (calls : List WriteCall) (call : WriteCall) (data : List UInt8)
    (h : call.payload = some data) :
    logOf (calls ++ [call]) = (logOf calls).append data := by
  rw [logOf_append, CommandLog.after_of_some _ h]

/-- The device keeps the ten newest closed commands and the open bytes. -/
def Refines (k : Kernel) (log : CommandLog) : Prop :=
  (∃ es, Holds k es log.closed) ∧ CacheHolds k.heap k.dev.entryCache log.pending

theorem refines_init : Refines aesdInitModule .empty :=
  ⟨⟨[], holds_init⟩, Or.inl ⟨rfl, rfl⟩⟩

namespace Refines

variable {k : Kernel} {log : CommandLog}

/-- What the copy and the hand-over make of a nonempty payload. -/
theorem commit (h : Refines k log) (data : List UInt8) (tmp : ℕ) (heap : Heap UInt8)
    (hne : data ≠ []) (happ : Appended k.heap k.dev.entryCache data tmp log.pending heap) :
    ∃ k', commitEntry ⟨{ k.dev with entryCache := ⟨some tmp, (log.pending ++ data).length⟩ },
      heap⟩ = some k' ∧ Refines k' (log.append data) := by
  obtain ⟨⟨es, hholds⟩, hcache⟩ := h
  have happended := hholds.appended data log.pending tmp heap happ
  have hfits := happ.fits
  rw [commitEntry_eq _ tmp (log.pending ++ data) rfl happ.at_tmp (by simp [hne])
    (by rw [List.length_append, happ.head_length]; exact hfits),
    getLast?_append_of_ne _ _ hne, CommandLog.append]
  by_cases hlast : data.getLast? = some newline
  · obtain ⟨k', hk', hclear, hnew⟩ :=
      happended.handOver tmp (log.pending ++ data) rfl (by simp [hne]) happ.at_tmp
    rw [if_pos hlast, if_pos hlast]
    exact ⟨k', hk', ⟨_, hnew⟩, Or.inl ⟨rfl, hclear⟩⟩
  · rw [if_neg hlast, if_neg hlast]
    exact ⟨_, rfl, ⟨es, happended⟩, Or.inr ⟨by simp [hne], tmp, rfl, happ.at_tmp⟩⟩

/-- One defined write: a refused call changes nothing and returns its error, any
other call returns its count and appends its payload to the log. -/
theorem effect (h : Refines k log) (call : WriteCall) (hcopy : call.uncopied = 0)
    (r : WriteResult) (hr : aesdWrite k call = some r) :
    (∀ data, call.payload = some data →
      r.retval = data.length ∧ log.pending.length + data.length < 2 ^ 64 ∧
        Refines r.kernel (log.append data)) ∧
      (call.payload = none → call.refusal = some r.retval ∧ r.kernel = k) := by
  cases aesdWrite_effect k call r hr with
  | refused errno hrefusal =>
    have hnone : call.payload = none := by simp [WriteCall.payload, hrefusal]
    exact ⟨fun data hdata => by simp [hnone] at hdata, fun _ => ⟨hrefusal, rfl⟩⟩
  | faulted data head tmp heap hrefusal hfault happ => exact absurd hcopy hfault
  | appended bytes head tmp heap k' hpayload hne _ happ hcommit =>
    refine ⟨?_, fun hnone => by simp [hpayload] at hnone⟩
    intro data hdata
    cases Option.some.inj (hpayload.symm.trans hdata)
    have hhead := happ.head_eq log.pending h.2
    subst hhead
    obtain ⟨k'', hk'', hrefines⟩ := h.commit bytes tmp heap hne happ
    rw [hk''] at hcommit
    cases Option.some.inj hcommit
    exact ⟨rfl, by rw [happ.head_length]; exact happ.fits, hrefines⟩

theorem defined (h : Refines k log) (call : WriteCall) (hcopy : call.uncopied = 0)
    (hfits : ∀ data, call.payload = some data → log.pending.length + data.length < 2 ^ 64) :
    ∃ r, aesdWrite k call = some r := by
  apply aesdWrite_defined k call log.pending h.2 hcopy hfits
  intro data tmp heap _ hne happ
  obtain ⟨k', hk', _⟩ := h.commit data tmp heap hne happ
  exact ⟨k', hk'⟩

end Refines

/-- What one defined write that copies its whole payload makes of the log. -/
theorem Refines.next {k : Kernel} {log : CommandLog} (h : Refines k log) (hfits : log.Fits)
    (call : WriteCall) (hcopy : call.uncopied = 0) (r : WriteResult)
    (hr : aesdWrite k call = some r) :
    Refines r.kernel (log.after [call]) ∧ (log.after [call]).Fits := by
  obtain ⟨hsome, hnone⟩ := h.effect call hcopy r hr
  cases hpayload : call.payload with
  | none =>
    rw [CommandLog.after_of_none log hpayload, (hnone hpayload).2]
    exact ⟨h, hfits⟩
  | some data =>
    obtain ⟨_, hlt, hnext⟩ := hsome data hpayload
    rw [CommandLog.after_of_some log hpayload]
    exact ⟨hnext, hfits.append data hlt⟩

/-- Every defined run of writes that copy their whole payload keeps the refinement. -/
theorem Refines.run {k t : Kernel} {log : CommandLog} (h : Refines k log) (hfits : log.Fits)
    (calls : List WriteCall) (hcopy : ∀ call ∈ calls, call.uncopied = 0)
    (hrun : runWrites k calls = some t) :
    Refines t (log.after calls) ∧ (log.after calls).Fits := by
  refine Runs.run_history (fun calls t => Refines t (log.after calls) ∧ (log.after calls).Fits)
    (fun _ call => call.uncopied = 0) ⟨h, hfits⟩ ?_ calls ?_ hrun
  · rintro calls u call v ⟨hrefines, hlog⟩ hcall hstep
    obtain ⟨r, hr, rfl⟩ := Option.map_eq_some_iff.mp hstep
    rw [CommandLog.after_append]
    exact hrefines.next hlog call hcall r hr
  · rintro done call rest u rfl _
    exact hcopy call (by simp)

/-- A run of writes whose sizes fit has a result. -/
theorem Refines.run_defined {k : Kernel} {log : CommandLog} (h : Refines k log)
    (calls : List WriteCall) (hcopy : ∀ call ∈ calls, call.uncopied = 0)
    (hfits : (log.after calls).Fits) : ∃ t, runWrites k calls = some t := by
  induction calls generalizing k log with
  | nil => exact ⟨k, rfl⟩
  | cons call rest ih =>
    have hcall : call.uncopied = 0 := hcopy call List.mem_cons_self
    rw [← List.singleton_append, CommandLog.after_append] at hfits
    have hfirst := CommandLog.fits_of_after _ rest hfits
    obtain ⟨r, hr⟩ := h.defined call hcall (fun data hdata => by
      rw [CommandLog.after_of_some log hdata] at hfirst
      exact (CommandLog.Fits.of_append _ _ hfirst).2)
    have hlog := CommandLog.fits_of_after log [call] hfirst
    obtain ⟨t, ht⟩ := ih (h.next hlog call hcall r hr).1
      (fun c hc => hcopy c (List.mem_cons_of_mem call hc)) hfits
    exact ⟨t, by rw [runWrites, Runs.run, hr, Option.map_some, Option.bind_some]; exact ht⟩

/-- Every defined run from the start ends in a device that refines its command log. -/
theorem refines_of_run (calls : List WriteCall) (k : Kernel)
    (hcopy : ∀ call ∈ calls, call.uncopied = 0)
    (hrun : runWrites aesdInitModule calls = some k) :
    Refines k (logOf calls) ∧ (logOf calls).Fits :=
  refines_init.run CommandLog.fits_empty calls hcopy hrun

theorem runWrites_defined (calls : List WriteCall)
    (hcopy : ∀ call ∈ calls, call.uncopied = 0) (hfits : (logOf calls).Fits) :
    ∃ k, runWrites aesdInitModule calls = some k :=
  refines_init.run_defined calls hcopy hfits

theorem cacheHolds_bytes (k : Kernel) (bytes : List UInt8)
    (h : CacheHolds k.heap k.dev.entryCache bytes) :
    k.bytesOf k.dev.entryCache = some bytes ∧
      (k.dev.entryCache.buffptr = none ∧ k.dev.entryCache.size = 0 ↔ bytes = []) := by
  rcases h with ⟨rfl, hcache⟩ | ⟨hne, p, hcache, hp⟩
  · simp [Kernel.bytesOf, hcache]
  · have hread := Heap.read_all k.heap p _ hp
    simp [Kernel.bytesOf, hcache, hread, hne]

/-- No byte is lost, duplicated or reordered by a run of writes: the live entries
hold the ten newest commands, the cache holds the rest, each accepted call
returns its count and each refused one leaves the kernel state as it was. -/
theorem writes_refine_commandLog (calls : List WriteCall)
    (hcopy : ∀ call ∈ calls, call.uncopied = 0) (hfits : (logOf calls).Fits) :
    ∃ k, runWrites aesdInitModule calls = some k ∧
      k.LiveCommands ((logOf calls).closed.drop
        ((logOf calls).closed.length - min (logOf calls).closed.length 10)) ∧
      k.bytesOf k.dev.entryCache = some (logOf calls).pending ∧
      (k.dev.entryCache.buffptr = none ∧ k.dev.entryCache.size = 0 ↔
        (logOf calls).pending = []) ∧
      ∀ done call rest, calls = done ++ call :: rest →
        ∃ before r, runWrites aesdInitModule done = some before ∧
          aesdWrite before call = some r ∧
          (∀ data, call.payload = some data → r.retval = data.length) ∧
          (call.payload = none → call.refusal = some r.retval ∧ r.retval < 0 ∧
            r.kernel = before) := by
  obtain ⟨k, hk⟩ := runWrites_defined calls hcopy hfits
  obtain ⟨⟨⟨es, hholds⟩, hcache⟩, _⟩ := refines_of_run calls k hcopy hk
  obtain ⟨hbytes, hnull⟩ := cacheHolds_bytes k _ hcache
  refine ⟨k, hk, ?_, hbytes, hnull, ?_⟩
  · have hdrop : (logOf calls).closed.length - min (logOf calls).closed.length 10 =
        (logOf calls).closed.length - 10 := by omega
    rw [hdrop]
    exact hholds.shows.liveCommands
  · rintro done call rest rfl
    have hcopy' : ∀ c ∈ done, c.uncopied = 0 := fun c hc => hcopy c (by simp [hc])
    obtain ⟨before, hbefore, hnext⟩ := Runs.run_split done (call :: rest) hk
    obtain ⟨next, hr, _⟩ := Option.bind_eq_some_iff.mp hnext
    obtain ⟨r, hr, _⟩ := Option.map_eq_some_iff.mp hr
    obtain ⟨hsome, hnone⟩ := (refines_of_run done before hcopy' hbefore).1.effect call
      (hcopy call (by simp)) r hr
    refine ⟨before, r, hbefore, hr, fun data hdata => (hsome data hdata).1, fun hp => ?_⟩
    obtain ⟨hrefusal, hkernel⟩ := hnone hp
    exact ⟨hrefusal, refusal_neg call _ hrefusal, hkernel⟩

/-- A partial write, an interrupted one, the end of the command and one more byte. -/
theorem writes_refine_sample :
    ∃ k, runWrites aesdInitModule
        [.granted ⟨[97], by decide⟩ 3,
          { WriteCall.granted ⟨[98, 10], by decide⟩ 3 with interrupted := true },
          .granted ⟨[99, 10], by decide⟩ 4, .granted ⟨[100], by decide⟩ 4] = some k ∧
      k.LiveCommands [[97, 99, 10]] ∧ k.bytesOf k.dev.entryCache = some [100] := by
  obtain ⟨k, hk, hlive, hcache, _⟩ := writes_refine_commandLog
    [.granted ⟨[97], by decide⟩ 3,
      { WriteCall.granted ⟨[98, 10], by decide⟩ 3 with interrupted := true },
      .granted ⟨[99, 10], by decide⟩ 4, .granted ⟨[100], by decide⟩ 4]
    (by decide) ⟨by decide, by decide⟩
  exact ⟨k, hk, hlive, hcache⟩

end Aesd.Driver
