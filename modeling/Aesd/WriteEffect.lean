import Aesd.Driver

/-!
What one `aesd_write` can do, said once: it is refused and changes nothing, it
faults while copying and loses the collected block, or it appends the payload
to the collected bytes and then hands a finished command over. Every later
invariant of the device is derived from this case distinction.
-/
namespace Aesd.Driver

/-- The heap without the block of the collected bytes. -/
def withoutCache (heap : Heap UInt8) (cache : BufferEntry) : Heap UInt8 :=
  match cache.buffptr with
  | none => heap
  | some p => heap.erase p

/-- The bytes collected so far are `bytes`; nothing is allocated for no bytes. -/
def CacheHolds (heap : Heap UInt8) (cache : BufferEntry) (bytes : List UInt8) : Prop :=
  (bytes = [] ∧ cache = ⟨none, 0⟩) ∨
    (bytes ≠ [] ∧ ∃ p, cache = ⟨some p, bytes.length⟩ ∧ heap.data p = some bytes)

/-- Block `tmp` has taken the place of the collected block and holds the old
bytes `head` followed by `data`; no other block has changed. -/
structure Appended (heap : Heap UInt8) (cache : BufferEntry) (data : List UInt8) (tmp : ℕ)
    (head : List UInt8) (heap' : Heap UInt8) : Prop where
  free : (withoutCache heap cache).data tmp = none
  at_tmp : heap'.data tmp = some (head ++ data)
  elsewhere : ∀ b, b ≠ tmp → heap'.data b = (withoutCache heap cache).data b
  head_length : head.length = cache.size
  fits : cache.size + data.length < 2 ^ 64
  head_eq : ∀ bytes, CacheHolds heap cache bytes → head = bytes

/-- The error with which a call is refused before it copies anything. -/
def WriteCall.refusal (call : WriteCall) : Option ℤ :=
  if call.filpNull then some (-EINVAL)
  else match call.buf with
  | none => some (-EINVAL)
  | some buf =>
      if call.interrupted then some (-ERESTARTSYS)
      else if buf.count = 0 then some (-EINVAL)
      else if call.pick = none then some (-ENOMEM)
      else none

/-- The bytes a call adds to the device, if it is not refused. -/
def WriteCall.payload (call : WriteCall) : Option (List UInt8) :=
  match call.refusal with
  | some _ => none
  | none => call.buf.map UserBuf.bytes

/-- The kernel grants everything: the payload is taken as a whole. -/
def WriteCall.Succeeds (call : WriteCall) : Prop := call.refusal = none ∧ call.uncopied = 0

instance (call : WriteCall) : Decidable call.Succeeds :=
  inferInstanceAs (Decidable (call.refusal = none ∧ call.uncopied = 0))

/-- The call completes a command: its payload is taken and ends in a newline. -/
def WriteCall.Closes (call : WriteCall) : Prop :=
  call.uncopied = 0 ∧ ∃ data, call.payload = some data ∧ data.getLast? = some newline

/-- The three ways in which `aesd_write` can end. -/
inductive WriteEffect (k : Kernel) (call : WriteCall) : WriteResult → Prop
  | refused (errno : ℤ) (hrefusal : call.refusal = some errno) :
      WriteEffect k call ⟨k, call.fPos, errno⟩
  | faulted (data head : List UInt8) (tmp : ℕ) (heap : Heap UInt8)
      (hrefusal : call.refusal = none) (hfault : call.uncopied ≠ 0)
      (happ : Appended k.heap k.dev.entryCache data tmp head heap) :
      WriteEffect k call ⟨{ k with heap := heap.erase tmp }, call.fPos, -EFAULT⟩
  | appended (bytes head : List UInt8) (tmp : ℕ) (heap : Heap UInt8) (k' : Kernel)
      (hpayload : call.payload = some bytes) (hne : bytes ≠ []) (hcopy : call.uncopied = 0)
      (happ : Appended k.heap k.dev.entryCache bytes tmp head heap)
      (hcommit : commitEntry
        ⟨{ k.dev with entryCache := ⟨some tmp, (head ++ bytes).length⟩ }, heap⟩ = some k') :
      WriteEffect k call ⟨k', bytes.length, bytes.length⟩

theorem refusal_neg (call : WriteCall) (errno : ℤ) (h : call.refusal = some errno) :
    errno < 0 := by
  unfold WriteCall.refusal at h
  split at h
  · cases h
    decide
  · split at h
    · cases h
      decide
    · split at h
      · cases h
        decide
      · split at h
        · cases h
          decide
        · split at h
          · cases h
            decide
          · cases h

theorem refusal_eq_none_iff (call : WriteCall) :
    call.refusal = none ↔ call.filpNull = false ∧ call.interrupted = false ∧
      call.pick ≠ none ∧ ∃ buf, call.buf = some buf ∧ buf.count ≠ 0 := by
  unfold WriteCall.refusal
  cases call.filpNull with
  | true => simp
  | false =>
    cases call.buf with
    | none => simp
    | some buf =>
      cases call.interrupted with
      | true => simp
      | false =>
        by_cases hcount : buf.count = 0
        · simp [hcount]
        · by_cases hpick : call.pick = none <;> simp [hcount, hpick]

theorem payload_eq_some (call : WriteCall) (buf : UserBuf) (hbuf : call.buf = some buf)
    (hfilp : call.filpNull = false) (hlock : call.interrupted = false) (hpick : call.pick ≠ none)
    (hne : buf.bytes ≠ []) : call.payload = some buf.bytes := by
  have hrefusal : call.refusal = none := by
    rw [refusal_eq_none_iff]
    exact ⟨hfilp, hlock, hpick, buf, hbuf, by simpa [UserBuf.count] using hne⟩
  rw [WriteCall.payload, hrefusal, hbuf]
  rfl

theorem refusal_of_payload {call : WriteCall} {data : List UInt8}
    (h : call.payload = some data) : call.refusal = none := by
  unfold WriteCall.payload at h
  split at h
  · cases h
  · assumption

/-- A call that is not refused has a nonempty payload. -/
theorem exists_payload {call : WriteCall} (h : call.refusal = none) :
    ∃ buf, call.buf = some buf ∧ buf.bytes ≠ [] ∧ call.payload = some buf.bytes := by
  obtain ⟨_, _, _, buf, hbuf, hcount⟩ := (refusal_eq_none_iff call).mp h
  refine ⟨buf, hbuf, ?_, by simp [WriteCall.payload, h, hbuf]⟩
  intro hnil
  exact hcount (by simp [UserBuf.count, hnil])

theorem payload_length_lt (call : WriteCall) (bytes : List UInt8)
    (h : call.payload = some bytes) : bytes.length < 2 ^ 63 := by
  unfold WriteCall.payload at h
  split at h
  · cases h
  · obtain ⟨buf, _, rfl⟩ := Option.map_eq_some_iff.mp h
    exact buf.count_lt

private theorem erase_fresh (heap : Heap UInt8) (p b : ℕ) :
    (heap.erase p).data (if b = p then p else heap.fresh b) = none := by
  by_cases hb : b = p
  · rw [if_pos hb]
    exact Store.data_erase_self ..
  · rw [if_neg hb]
    by_cases hp : heap.fresh b = p
    · rw [hp]
      exact Store.data_erase_self ..
    · rw [Store.data_erase_of_ne _ hp]
      exact Store.data_fresh ..

/-- Either no block was to be had, or block `tmp` of length `n` now stands in
for the collected one and starts with what that one held. -/
theorem growCache_cases (heap : Heap UInt8) (cache : BufferEntry) (count : ℕ)
    (call : WriteCall) (out : Heap UInt8 × Option ℕ) (hcount : count < 2 ^ 63)
    (h : growCache heap cache count call = some out) :
    (call.pick = none ∧ out = (heap, none)) ∨
      ∃ tmp old n, call.pick ≠ none ∧
        out = ((withoutCache heap cache).set tmp (Heap.resize old n call.stale), some tmp) ∧
        (withoutCache heap cache).data tmp = none ∧ n ≤ cache.size + count ∧ n < 2 ^ 64 ∧
        ∀ bytes, CacheHolds heap cache bytes →
          old = bytes ∧ bytes.length = cache.size ∧ n = sizeT (cache.size + count) := by
  obtain ⟨ptr, size⟩ := cache
  cases ptr with
  | none =>
    cases hpick : call.pick with
    | none =>
      simp only [growCache, Heap.kmalloc, hpick, Option.some.injEq] at h
      exact Or.inl ⟨rfl, h.symm⟩
    | some b =>
      simp only [growCache, Heap.kmalloc, hpick, Option.some.injEq] at h
      refine Or.inr ⟨heap.fresh b, [], count, by simp, h.symm, Store.data_fresh heap b,
        Nat.le_add_left .., by omega, ?_⟩
      rintro bytes (⟨rfl, hcache⟩ | ⟨_, p, hcache, _⟩)
      · cases hcache
        have hn := sizeT_of_lt count (by omega)
        exact ⟨rfl, rfl, by simpa using hn.symm⟩
      · cases hcache
  | some p =>
    cases hp : heap.data p with
    | none => simp [growCache, Heap.krealloc, hp] at h
    | some old =>
      cases hpick : call.pick with
      | none =>
        simp only [growCache, Heap.krealloc, hp, hpick, Option.some.injEq] at h
        exact Or.inl ⟨rfl, h.symm⟩
      | some b =>
        simp only [growCache, Heap.krealloc, hp, hpick, Option.some.injEq] at h
        have hsize : sizeT (size + count) ≤ size + count := by
          unfold sizeT
          omega
        have hsize64 : sizeT (size + count) < 2 ^ 64 := by
          unfold sizeT
          omega
        refine Or.inr ⟨_, old, _, by simp, h.symm, erase_fresh heap p b, hsize, hsize64, ?_⟩
        rintro bytes (⟨_, hcache⟩ | ⟨_, q, hcache, hq⟩)
        · cases hcache
        · cases hcache
          rw [hp] at hq
          exact ⟨Option.some.inj hq, rfl, rfl⟩

/-- Copying into the new block appends to the collected bytes. -/
theorem appended_of_write (heap heap' : Heap UInt8) (cache : BufferEntry)
    (old data : List UInt8) (n tmp : ℕ) (stale : ℕ → UInt8)
    (hfree : (withoutCache heap cache).data tmp = none) (hn : n ≤ cache.size + data.length)
    (hn64 : n < 2 ^ 64)
    (hold : ∀ bytes, CacheHolds heap cache bytes → old = bytes ∧ bytes.length = cache.size)
    (hwrite : Heap.write ((withoutCache heap cache).set tmp (Heap.resize old n stale))
      tmp cache.size data = some heap') :
    Appended heap cache data tmp ((Heap.resize old n stale).take cache.size) heap' := by
  have hlen := Heap.length_resize old n stale
  have hle : cache.size + data.length ≤ n := by
    by_contra hgt
    have hnone : ¬ cache.size + data.length ≤ (Heap.resize old n stale).length := by
      rw [hlen]
      exact hgt
    simp [Heap.write, hnone] at hwrite
  rw [Heap.write_tail _ tmp cache.size _ data (Store.data_set_self ..) (by omega)] at hwrite
  cases Option.some.inj hwrite
  constructor
  · exact hfree
  · exact Store.data_set_self ..
  · intro b hb
    rw [Store.data_set_of_ne _ _ hb, Store.data_set_of_ne _ _ hb]
  · rw [List.length_take, hlen]
    omega
  · omega
  · intro bytes hbytes
    obtain ⟨rfl, hsize⟩ := hold bytes hbytes
    rw [Heap.take_resize old n cache.size stale (by omega) (by omega)]
    exact List.take_of_length_le (by omega)

private theorem length_copied (bytes : List UInt8) (uncopied : ℕ) :
    (bytes.take (bytes.length - uncopied) ++
      List.replicate (min uncopied bytes.length) (0 : UInt8)).length = bytes.length := by
  simp
  omega

/-- `buffer_tmp` and the heap after the bytes of `buf` have been copied behind the
collected ones, if a block was to be had. -/
def copied (k : Kernel) (call : WriteCall) (buf : UserBuf) : Option (ℕ × Heap UInt8) :=
  (growCache k.heap k.dev.entryCache buf.count call).bind (fun grown =>
    grown.2.bind (fun bufferTmp =>
      (copyFromUser grown.1 bufferTmp k.dev.entryCache.size buf.bytes call.uncopied).map
        (fun heap => (bufferTmp, heap))))

/-- The state in which `aesd_write` looks for the newline. -/
def collected (k : Kernel) (buf : UserBuf) (c : ℕ × Heap UInt8) : Kernel :=
  ⟨{ k.dev with entryCache := ⟨some c.1, sizeT (k.dev.entryCache.size + buf.count)⟩ }, c.2⟩

/-- A call that is not refused copies, and then frees the block or goes on with it. -/
theorem aesdWrite_eq_copied (k : Kernel) (call : WriteCall) (buf : UserBuf)
    (hrefusal : call.refusal = none) (hbuf : call.buf = some buf) :
    aesdWrite k call = (copied k call buf).bind (fun c =>
      if call.uncopied ≠ 0 then
        (c.2.kfree (some c.1)).map (fun freed => ⟨{ k with heap := freed }, call.fPos, -EFAULT⟩)
      else (commitEntry (collected k buf c)).map (fun k' => ⟨k', buf.count, buf.count⟩)) := by
  obtain ⟨hfilp, hint, hpick, buf', hbuf', hcount⟩ := (refusal_eq_none_iff call).mp hrefusal
  cases Option.some.inj (hbuf.symm.trans hbuf')
  unfold aesdWrite copied
  rw [hfilp, if_neg Bool.false_ne_true, hbuf]
  simp only
  rw [hint, if_neg Bool.false_ne_true, if_neg (by omega), Option.bind_assoc]
  cases hgrow : growCache k.heap k.dev.entryCache buf.count call with
  | none => rfl
  | some grown =>
    rcases growCache_cases _ _ _ _ _ buf.count_lt hgrow with
      ⟨hnone, _⟩ | ⟨tmp, old, n, _, rfl, _⟩
    · exact absurd hnone hpick
    · simp only [Option.bind_some, Option.bind_map, Function.comp_def, collected]

/-- The copy has appended to the collected bytes, zeros in place of what was not copied. -/
theorem copied_appended (k : Kernel) (call : WriteCall) (buf : UserBuf) (c : ℕ × Heap UInt8)
    (h : copied k call buf = some c) :
    ∃ head, Appended k.heap k.dev.entryCache (buf.bytes.take (buf.bytes.length - call.uncopied) ++
      List.replicate (min call.uncopied buf.bytes.length) 0) c.1 head c.2 := by
  simp only [copied, Option.bind_eq_some_iff, Option.map_eq_some_iff] at h
  obtain ⟨grown, hgrow, tmp, htmp, heap, hwrite, rfl⟩ := h
  rcases growCache_cases _ _ _ _ _ buf.count_lt hgrow with
    ⟨_, rfl⟩ | ⟨tmp', old, n, _, rfl, hfree, hn, hn64, hold⟩
  · cases htmp
  · cases htmp
    have hlen := length_copied buf.bytes call.uncopied
    exact ⟨_, appended_of_write _ _ _ _ _ _ _ _ hfree (by rw [hlen]; exact hn) hn64
      (fun bytes hb => ⟨(hold bytes hb).1, (hold bytes hb).2.1⟩) hwrite⟩

/-- The collected block is allocated when it is enlarged. -/
theorem kfree_pending {k : Kernel} {call : WriteCall} {buf : UserBuf} {c : ℕ × Heap UInt8}
    (h : copied k call buf = some c) :
    k.heap.kfree k.dev.entryCache.buffptr = some (withoutCache k.heap k.dev.entryCache) := by
  obtain ⟨grown, hgrow, _⟩ := Option.bind_eq_some_iff.mp h
  unfold growCache at hgrow
  unfold withoutCache
  cases hptr : k.dev.entryCache.buffptr with
  | none => rfl
  | some p =>
    rw [hptr] at hgrow
    cases hdata : k.heap.data p with
    | none => simp [Heap.krealloc, hdata] at hgrow
    | some old => simp [Heap.kfree, hdata]

/-- The size recorded for the collected bytes is their number. -/
theorem Appended.sizeT_eq {heap heap' : Heap UInt8} {cache : BufferEntry} {tmp : ℕ}
    {head : List UInt8} {buf : UserBuf} (h : Appended heap cache buf.bytes tmp head heap') :
    sizeT (cache.size + buf.count) = (head ++ buf.bytes).length := by
  have hsize := sizeT_of_lt _ h.fits
  rw [List.length_append, h.head_length]
  simpa [UserBuf.count] using hsize

/-- A refused call changes nothing, unless it asks to enlarge a block that is not
allocated. -/
theorem aesdWrite_refusal_cases (k : Kernel) (call : WriteCall) (errno : ℤ)
    (hrefusal : call.refusal = some errno) :
    aesdWrite k call = some ⟨k, call.fPos, errno⟩ ∨
      aesdWrite k call = none ∧ ∃ count, growCache k.heap k.dev.entryCache count call = none := by
  unfold WriteCall.refusal at hrefusal
  unfold aesdWrite
  cases hfilp : call.filpNull with
  | true => simp_all
  | false =>
    cases hbuf : call.buf with
    | none => simp_all
    | some buf =>
      cases hint : call.interrupted with
      | true => simp_all
      | false =>
        by_cases hcount : buf.count = 0
        · simp_all
        · cases hgrow : growCache k.heap k.dev.entryCache buf.count call with
          | none => exact Or.inr ⟨by simp [hcount, hgrow], buf.count, hgrow⟩
          | some grown =>
            rcases growCache_cases _ _ _ _ _ buf.count_lt hgrow with
              ⟨hpick, rfl⟩ | ⟨tmp, old, n, hpick, _⟩
            · simp_all
            · simp_all

/-- Every defined `aesd_write` has one of the three effects. -/
theorem aesdWrite_effect (k : Kernel) (call : WriteCall) (r : WriteResult)
    (h : aesdWrite k call = some r) : WriteEffect k call r := by
  cases hrefusal : call.refusal with
  | some errno =>
    rcases aesdWrite_refusal_cases k call errno hrefusal with hsome | ⟨hnone, _⟩
    · cases hsome.symm.trans h
      exact .refused errno hrefusal
    · cases hnone.symm.trans h
  | none =>
    obtain ⟨buf, hbuf, hne, hpayload⟩ := exists_payload hrefusal
    rw [aesdWrite_eq_copied k call buf hrefusal hbuf, Option.bind_eq_some_iff] at h
    obtain ⟨c, hcopied, h⟩ := h
    obtain ⟨head, happ⟩ := copied_appended k call buf c hcopied
    by_cases hcopy : call.uncopied = 0
    · rw [if_neg (by simpa using hcopy), Option.map_eq_some_iff] at h
      obtain ⟨k', hcommit, rfl⟩ := h
      simp only [hcopy, Nat.sub_zero, List.take_length, Nat.zero_min,
        List.replicate_zero, List.append_nil] at happ
      rw [collected, happ.sizeT_eq] at hcommit
      exact .appended buf.bytes head c.1 c.2 k' hpayload hne hcopy happ hcommit
    · rw [if_pos hcopy, Option.map_eq_some_iff] at h
      obtain ⟨freed, hfreed, rfl⟩ := h
      have hsome : (c.2.data c.1).isSome = true := by simp [happ.at_tmp]
      rw [Heap.kfree, if_pos hsome] at hfreed
      cases Option.some.inj hfreed
      exact .faulted _ _ c.1 c.2 hrefusal hcopy happ

/-- A write that adds its payload leaves the position at the number of its bytes. -/
theorem aesdWrite_fPos {k : Kernel} {call : WriteCall} {r : WriteResult} {data : List UInt8}
    (hcopy : call.uncopied = 0) (hpayload : call.payload = some data)
    (hr : aesdWrite k call = some r) : r.fPos = data.length := by
  cases aesdWrite_effect k call r hr with
  | refused errno hrefusal => simp [WriteCall.payload, hrefusal] at hpayload
  | faulted data' head tmp heap hrefusal hfault happ => exact absurd hcopy hfault
  | appended bytes head tmp heap k' hbytes hne _ happ hcommit =>
    cases Option.some.inj (hbytes.symm.trans hpayload)
    rfl

theorem getLast?_append_of_ne {α : Type*} (xs ys : List α) (h : ys ≠ []) :
    (xs ++ ys).getLast? = ys.getLast? := by
  rw [List.getLast?_append, List.getLast?_eq_some_getLast h, Option.some_or]

/-- The hand-over happens exactly when the collected bytes end in a newline. -/
theorem commitEntry_eq (k : Kernel) (tmp : ℕ) (bytes : List UInt8)
    (hcache : k.dev.entryCache = ⟨some tmp, bytes.length⟩)
    (htmp : k.heap.data tmp = some bytes) (hne : bytes ≠ []) (hlt : bytes.length < 2 ^ 64) :
    commitEntry k = if bytes.getLast? = some newline then handOver k else some k := by
  have hpos : 0 < bytes.length := List.length_pos_iff.mpr hne
  have hidx : sizeT ((bytes.length : ℤ) - 1) = bytes.length - 1 := by
    unfold sizeT
    omega
  have hlast : lastByte k.heap k.dev.entryCache = bytes.getLast? := by
    simp only [lastByte, hcache, Option.bind_some, htmp, hidx]
    exact List.getLast?_eq_getElem?.symm
  obtain ⟨last, hsome⟩ : ∃ last, bytes.getLast? = some last :=
    ⟨_, List.getLast?_eq_some_getLast hne⟩
  rw [commitEntry, hlast, hsome, Option.bind_some]
  simp

theorem growCache_defined (heap : Heap UInt8) (cache : BufferEntry) (count : ℕ)
    (call : WriteCall) (bytes : List UInt8) (hcache : CacheHolds heap cache bytes) :
    ∃ out, growCache heap cache count call = some out := by
  rcases hcache with ⟨_, rfl⟩ | ⟨_, p, rfl, hp⟩
  · exact ⟨_, rfl⟩
  · cases hpick : call.pick with
    | none => exact ⟨(heap, none), by simp [growCache, Heap.krealloc, hp, hpick]⟩
    | some b => exact ⟨_, by simp [growCache, Heap.krealloc, hp, hpick]; rfl⟩

/-- A copy of the whole payload has a result, provided the sizes fit. -/
theorem copied_defined (k : Kernel) (call : WriteCall) (buf : UserBuf) (bytes : List UInt8)
    (hcache : CacheHolds k.heap k.dev.entryCache bytes) (hpick : call.pick ≠ none)
    (hcopy : call.uncopied = 0) (hfit : bytes.length + buf.bytes.length < 2 ^ 64) :
    ∃ c, copied k call buf = some c ∧
      Appended k.heap k.dev.entryCache buf.bytes c.1 bytes c.2 := by
  obtain ⟨out, hgrow⟩ := growCache_defined k.heap k.dev.entryCache buf.count call bytes hcache
  rcases growCache_cases _ _ _ _ _ buf.count_lt hgrow with
    ⟨hnone, _⟩ | ⟨tmp, old, n, _, rfl, _, _, _, hold⟩
  · exact absurd hnone hpick
  · obtain ⟨_, hsize, hn⟩ := hold bytes hcache
    have hlen : n = k.dev.entryCache.size + buf.bytes.length := by
      have := sizeT_of_lt _ hfit
      rw [hn, ← hsize]
      simpa [UserBuf.count] using this
    have hwrite := Heap.write_tail
      ((withoutCache k.heap k.dev.entryCache).set tmp (Heap.resize old n call.stale))
      tmp k.dev.entryCache.size _ buf.bytes (Store.data_set_self ..)
      (by rw [Heap.length_resize]; exact hlen)
    have hcopied : ∃ heap, copied k call buf = some (tmp, heap) := by
      simp only [copied, hgrow, Option.bind_some, copyFromUser, hcopy, Nat.sub_zero,
        List.take_length, Nat.zero_min, List.replicate_zero, List.append_nil, hwrite,
        Option.map_some]
      exact ⟨_, rfl⟩
    obtain ⟨heap, hcopied⟩ := hcopied
    obtain ⟨head, happ⟩ := copied_appended k call buf _ hcopied
    simp only [hcopy, Nat.sub_zero, List.take_length, Nat.zero_min, List.replicate_zero,
      List.append_nil] at happ
    exact ⟨_, hcopied, happ.head_eq bytes hcache ▸ happ⟩

/-- A write that copies its whole payload has a result, provided the sizes fit
and the hand-over after the copy has one. -/
theorem aesdWrite_defined (k : Kernel) (call : WriteCall) (bytes : List UInt8)
    (hcache : CacheHolds k.heap k.dev.entryCache bytes) (hcopy : call.uncopied = 0)
    (hfits : ∀ data, call.payload = some data → bytes.length + data.length < 2 ^ 64)
    (hcommit : ∀ data tmp heap, call.payload = some data → data ≠ [] →
      Appended k.heap k.dev.entryCache data tmp bytes heap →
      ∃ k', commitEntry ⟨{ k.dev with entryCache := ⟨some tmp, (bytes ++ data).length⟩ },
        heap⟩ = some k') :
    ∃ r, aesdWrite k call = some r := by
  cases hrefusal : call.refusal with
  | some errno =>
    rcases aesdWrite_refusal_cases k call errno hrefusal with hsome | ⟨_, count, hnone⟩
    · exact ⟨_, hsome⟩
    · obtain ⟨out, hgrow⟩ := growCache_defined k.heap k.dev.entryCache count call bytes hcache
      cases hnone.symm.trans hgrow
  | none =>
    obtain ⟨_, _, hpick, _⟩ := (refusal_eq_none_iff call).mp hrefusal
    obtain ⟨buf, hbuf, hne, hpayload⟩ := exists_payload hrefusal
    obtain ⟨c, hcopied, happ⟩ := copied_defined k call buf bytes hcache hpick hcopy
      (hfits _ hpayload)
    obtain ⟨k', hk'⟩ := hcommit _ _ _ hpayload hne happ
    refine ⟨⟨k', buf.count, buf.count⟩, ?_⟩
    rw [aesdWrite_eq_copied k call buf hrefusal hbuf, hcopied, Option.bind_some,
      if_neg (by simpa using hcopy), collected, happ.sizeT_eq, hk', Option.map_some]

end Aesd.Driver
