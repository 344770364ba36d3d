import Aesd.FailedWrites

/-!
A stream cut into writes. As long as a newline is always the last byte of its payload,
the command log after a payload is the one after its bytes, written one at a time; so
two ways of cutting a stream lead to the same log, and devices that refine the same log
have the same content.
-/
namespace Aesd.Driver

/-- A newline can only be the last byte. -/
def EndsAtNewline (payload : List UInt8) : Prop := newline ∉ payload.dropLast

instance (payload : List UInt8) : Decidable (EndsAtNewline payload) :=
  inferInstanceAs (Decidable (newline ∉ payload.dropLast))

/-- The devices show the same commands and pending bytes, and count the same size. -/
structure SameContent (k k' : Kernel) : Prop where
  live : k.dev.circularBuffer.live.map k.bytesOf = k'.dev.circularBuffer.live.map k'.bytesOf
  pending : k.bytesOf k.dev.entryCache = k'.bytesOf k'.dev.entryCache
  bufferSize : k.dev.bufferSize = k'.dev.bufferSize

namespace CommandLog

/-- The log after the bytes of a stream, each written on its own. -/
def feed (log : CommandLog) (stream : List UInt8) : CommandLog :=
  stream.foldl (fun log b => log.append [b]) log

theorem feed_append (log : CommandLog) (xs ys : List UInt8) :
    log.feed (xs ++ ys) = (log.feed xs).feed ys := List.foldl_append

theorem feed_of_notMem (log : CommandLog) (stream : List UInt8) (h : newline ∉ stream) :
    log.feed stream = ⟨log.closed, log.pending ++ stream⟩ := by
  induction stream generalizing log with
  | nil => simp [feed]
  | cons b rest ih =>
    have hb : newline ∉ [b] :=
      fun hmem => h (List.mem_cons.mpr (Or.inl (List.mem_singleton.mp hmem)))
    have hrest : newline ∉ rest := fun hmem => h (List.mem_cons_of_mem b hmem)
    change (log.append [b]).feed rest = _
    rw [append_of_notMem log hb, ih _ hrest, List.append_assoc, List.singleton_append]

/-- The last byte decides in both cases, and the bytes before it are only collected. -/
theorem append_eq_feed (log : CommandLog) (payload : List UInt8) (h : EndsAtNewline payload) :
    log.append payload = log.feed payload := by
  rcases List.eq_nil_or_concat payload with rfl | ⟨front, b, rfl⟩
  · rw [append_of_notMem log (by simp), feed_of_notMem log [] (by simp)]
  · rw [List.concat_eq_append] at h ⊢
    have hfront : newline ∉ front := by
      rw [EndsAtNewline, List.dropLast_concat] at h
      exact h
    rw [feed_append, feed_of_notMem log front hfront]
    change _ = append ⟨log.closed, log.pending ++ front⟩ [b]
    simp only [append, List.getLast?_concat, List.getLast?_singleton, List.append_assoc]

theorem after_eq_feed (log : CommandLog) (calls : List WriteCall)
    (hcut : ∀ payload ∈ payloads calls, EndsAtNewline payload) :
    log.after calls = log.feed (payloads calls).flatten := by
  unfold after
  generalize payloads calls = cut at hcut
  induction cut generalizing log with
  | nil => rfl
  | cons payload rest ih =>
    rw [List.foldl_cons, List.flatten_cons, feed_append,
      append_eq_feed log payload (hcut payload List.mem_cons_self)]
    exact ih _ (fun p hp => hcut p (List.mem_cons_of_mem payload hp))

end CommandLog

theorem Refines.sameContent {k k' : Kernel} {log : CommandLog} (h : Refines k log)
    (h' : Refines k' log) : SameContent k k' := by
  obtain ⟨⟨es, hholds⟩, hcache⟩ := h
  obtain ⟨⟨es', hholds'⟩, hcache'⟩ := h'
  constructor
  · exact hholds.shows.liveCommands.trans hholds'.shows.liveCommands.symm
  · rw [(cacheHolds_bytes k _ hcache).1, (cacheHolds_bytes k' _ hcache').1]
  · rw [hholds.counter, hholds'.counter]

/-- Where all writes succeed, cutting leaves out nothing. -/
theorem eq_nil_of_stream_eq_nil (calls : List WriteCall) (hcalls : ∀ call ∈ calls, call.Succeeds)
    (hstream : (payloads calls).flatten = []) : calls = [] := by
  cases calls with
  | nil => rfl
  | cons call rest =>
    obtain ⟨buf, _, hne, hdata⟩ := exists_payload (hcalls call List.mem_cons_self).1
    simp [payloads, hdata, hne] at hstream

/-- However a stream is cut into writes that succeed, with every newline at the end of
its payload, it leaves the device with the same content. -/
theorem stream_cut_irrelevant (before calls calls' : List WriteCall) (k t : Kernel)
    (hbefore : runWrites aesdInitModule before = some k)
    (hcalls : ∀ call ∈ calls, call.Succeeds) (hcalls' : ∀ call ∈ calls', call.Succeeds)
    (hcut : ∀ payload ∈ payloads calls, EndsAtNewline payload)
    (hcut' : ∀ payload ∈ payloads calls', EndsAtNewline payload)
    (hstream : (payloads calls).flatten = (payloads calls').flatten)
    (hrun : runWrites k calls = some t) :
    ∃ t', runWrites k calls' = some t' ∧ SameContent t t' := by
  have hcopy : ∀ call ∈ calls, call.uncopied = 0 := fun call hcall => (hcalls call hcall).2
  have hcopy' : ∀ call ∈ calls', call.uncopied = 0 := fun call hcall => (hcalls' call hcall).2
  rcases refines_or_dangling before k hbefore with ⟨_, log, hrefines, hfits⟩ | ⟨_, hdangling⟩
  · have hlog : log.after calls = log.after calls' := by
      rw [log.after_eq_feed calls hcut, log.after_eq_feed calls' hcut', hstream]
    obtain ⟨hend, hsizes⟩ := hrefines.run hfits calls hcopy hrun
    rw [hlog] at hend hsizes
    obtain ⟨t', ht'⟩ := hrefines.run_defined calls' hcopy' hsizes
    exact ⟨t', ht', hend.sameContent (hrefines.run hfits calls' hcopy' ht').1⟩
  · cases calls with
    | nil =>
      cases eq_nil_of_stream_eq_nil calls' hcalls' (by rw [← hstream]; rfl)
      exact ⟨t, hrun, rfl, rfl, rfl⟩
    | cons call rest =>
      obtain ⟨u, hu, _⟩ := Option.bind_eq_some_iff.mp hrun
      obtain ⟨r, hr, _⟩ := Option.map_eq_some_iff.mp hu
      exact absurd (hcalls call List.mem_cons_self).1 (hdangling.refusal_ne hr)

/-- The stream "cd\ne" on a device in which "ab" is pending, in two writes and in four. -/
theorem stream_cut_sample :
    ∃ k t t', runWrites aesdInitModule [.granted ⟨[97, 98], by decide⟩ 0] = some k ∧
      runWrites k [.granted ⟨[99, 100, 10], by decide⟩ 1, .granted ⟨[101], by decide⟩ 2] =
        some t ∧
      runWrites k [.granted ⟨[99], by decide⟩ 5, .granted ⟨[100], by decide⟩ 5,
        .granted ⟨[10], by decide⟩ 5, .granted ⟨[101], by decide⟩ 5] = some t' ∧
      SameContent t t' := by
  obtain ⟨k, hk⟩ := Option.isSome_iff_exists.mp (show (runWrites aesdInitModule
    [.granted ⟨[97, 98], by decide⟩ 0]).isSome = true by decide)
  have hsome : ((runWrites aesdInitModule [.granted ⟨[97, 98], by decide⟩ 0]).bind (fun k =>
      runWrites k [.granted ⟨[99, 100, 10], by decide⟩ 1,
        .granted ⟨[101], by decide⟩ 2])).isSome = true := by decide
  rw [hk, Option.bind_some] at hsome
  obtain ⟨t, ht⟩ := Option.isSome_iff_exists.mp hsome
  obtain ⟨t', ht', hsame⟩ := stream_cut_irrelevant _ _
    [.granted ⟨[99], by decide⟩ 5, .granted ⟨[100], by decide⟩ 5, .granted ⟨[10], by decide⟩ 5,
      .granted ⟨[101], by decide⟩ 5] k t hk (by decide) (by decide) (by decide) (by decide)
    (by decide) ht
  exact ⟨k, t, t', hk, ht, ht', hsame⟩

end Aesd.Driver
