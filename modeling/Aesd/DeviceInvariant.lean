import Aesd.WriteEffect
import Mathlib.Data.List.GetD

/-!
The invariant of the device over any run of writes. The ghost lists are all
entries ever handed to the circular buffer and the commands they stood for; the
ten newest commands are still in their blocks, and no block is shared.
-/
namespace Aesd.Driver

open RingHistory

/-- The entry points to a block that holds exactly the command. -/
def Stored (heap : Heap UInt8) (entry : BufferEntry) (cmd : List UInt8) : Prop :=
  ∃ p, entry = ⟨some p, cmd.length⟩ ∧ heap.data p = some cmd

/-- What `buffer_size` amounts to after commands of the given sizes. From the
eleventh command on the driver takes off the size of the second oldest live
entry in place of the evicted one, so the first command is never taken off. -/
def sizeCounter (sizes : List ℕ) : ℕ :=
  if sizes.length < 10 then sizes.sum else sizes.headD 0 + (sizes.rtake 9).sum

structure Holds (k : Kernel) (es : List BufferEntry) (cmds : List (List UInt8)) : Prop where
  tracks : k.dev.circularBuffer.Tracks es
  sizes : es.map BufferEntry.size = cmds.map List.length
  nonempty : ∀ cmd ∈ cmds, cmd ≠ []
  stored : ∀ i e c, es.length ≤ i + 10 → es[i]? = some e → cmds[i]? = some c →
    Stored k.heap e c
  distinct : ∀ i j e f, es.length ≤ i + 10 → es.length ≤ j + 10 → es[i]? = some e →
    es[j]? = some f → e.buffptr = f.buffptr → i = j
  apart : ∀ i e, es.length ≤ i + 10 → es[i]? = some e →
    e.buffptr ≠ k.dev.entryCache.buffptr
  counter : k.dev.bufferSize = sizeCounter (cmds.map List.length) % 2 ^ 64

theorem holds_init : Holds aesdInitModule [] [] where
  tracks := CircularBuffer.tracks_init
  sizes := rfl
  nonempty cmd hcmd := by simp at hcmd
  stored i e c _ he := by simp at he
  distinct i j e f _ _ he := by simp at he
  apart i e _ he := by simp at he
  counter := rfl

namespace Holds

variable {k : Kernel} {es : List BufferEntry} {cmds : List (List UInt8)}

theorem length_eq (h : Holds k es cmds) : es.length = cmds.length := by
  simpa using congrArg List.length h.sizes

theorem exists_cmd (h : Holds k es cmds) (i : ℕ) (e : BufferEntry) (he : es[i]? = some e) :
    ∃ c, cmds[i]? = some c := by
  obtain ⟨hi, _⟩ := List.getElem?_eq_some_iff.mp he
  rw [h.length_eq] at hi
  exact ⟨cmds[i], List.getElem?_eq_getElem hi⟩

/-- A change that keeps the circular buffer, its counter and the live blocks. -/
theorem of_agree (h : Holds k es cmds) (cache : BufferEntry) (heap : Heap UInt8)
    (hheap : ∀ i e p, es.length ≤ i + 10 → es[i]? = some e → e.buffptr = some p →
      heap.data p = k.heap.data p)
    (hcache : ∀ i e, es.length ≤ i + 10 → es[i]? = some e → e.buffptr ≠ cache.buffptr) :
    Holds ⟨{ k.dev with entryCache := cache }, heap⟩ es cmds where
  tracks := h.tracks
  sizes := h.sizes
  nonempty := h.nonempty
  stored i e c hi he hc := by
    obtain ⟨p, rfl, hp⟩ := h.stored i e c hi he hc
    exact ⟨p, rfl, by rw [hheap i _ p hi he rfl]; exact hp⟩
  distinct := h.distinct
  apart := hcache
  counter := h.counter

/-- Live blocks are allocated, and none of them is the collected one. -/
theorem live_block (h : Holds k es cmds) (i p : ℕ) (e : BufferEntry)
    (hi : es.length ≤ i + 10) (he : es[i]? = some e) (hp : e.buffptr = some p) :
    (withoutCache k.heap k.dev.entryCache).data p = k.heap.data p ∧
      k.heap.data p ≠ none := by
  obtain ⟨c, hc⟩ := h.exists_cmd i e he
  obtain ⟨q, rfl, hq⟩ := h.stored i e c hi he hc
  cases hp
  constructor
  · have hne := h.apart i _ hi he
    unfold withoutCache
    split
    · rfl
    · rename_i r hr
      rw [hr] at hne
      have hpr : p ≠ r := fun heq => hne (by rw [heq])
      exact Store.data_erase_of_ne _ hpr
  · rw [hq]
    exact Option.some_ne_none c

theorem appended (h : Holds k es cmds) (data head : List UInt8) (tmp : ℕ) (heap : Heap UInt8)
    (happ : Appended k.heap k.dev.entryCache data tmp head heap) :
    Holds ⟨{ k.dev with entryCache := ⟨some tmp, (head ++ data).length⟩ }, heap⟩ es cmds := by
  have hne : ∀ i e p, es.length ≤ i + 10 → es[i]? = some e → e.buffptr = some p →
      p ≠ tmp := by
    rintro i e p hi he hp rfl
    obtain ⟨hsame, hsome⟩ := h.live_block i p e hi he hp
    exact hsome (hsame ▸ happ.free)
  apply h.of_agree
  · intro i e p hi he hp
    rw [happ.elsewhere p (hne i e p hi he hp)]
    exact (h.live_block i p e hi he hp).1
  · intro i e hi he hp
    exact hne i e tmp hi he hp rfl

theorem faulted (h : Holds k es cmds) (data head : List UInt8) (tmp : ℕ) (heap : Heap UInt8)
    (happ : Appended k.heap k.dev.entryCache data tmp head heap) :
    Holds { k with heap := heap.erase tmp } es cmds := by
  apply h.of_agree k.dev.entryCache
  · intro i e p hi he hp
    obtain ⟨hsame, hsome⟩ := h.live_block i p e hi he hp
    have hne : p ≠ tmp := by
      rintro rfl
      exact hsome (hsame ▸ happ.free)
    rw [Store.data_erase_of_ne _ hne, happ.elsewhere p hne, hsame]
  · exact h.apart

end Holds

theorem sizeCounter_concat_of_lt (sizes : List ℕ) (n : ℕ) (h : sizes.length < 10) :
    sizeCounter (sizes ++ [n]) = sizeCounter sizes + n := by
  unfold sizeCounter
  rw [if_pos h, List.length_append, List.length_singleton]
  by_cases hlt : sizes.length + 1 < 10
  · rw [if_pos hlt, List.sum_append, List.sum_singleton]
  · rw [if_neg hlt, List.rtake_concat_succ, List.sum_append, List.sum_singleton]
    cases sizes with
    | nil => simp at hlt
    | cons m rest =>
      have hrest : (m :: rest).rtake 8 = rest := by
        have hlen : rest.length = 8 := by
          simp only [List.length_cons] at h hlt
          omega
        simp [List.rtake, hlen]
      rw [hrest]
      simp [Nat.add_assoc]

theorem sizeCounter_concat_of_le (sizes : List ℕ) (n : ℕ) (h : 10 ≤ sizes.length) :
    sizeCounter (sizes ++ [n]) + sizes.getD (sizes.length - 9) 0 = sizeCounter sizes + n := by
  have hsplit : sizes.rtake 9 = sizes[sizes.length - 9] :: sizes.rtake 8 := by
    unfold List.rtake
    rw [List.drop_eq_getElem_cons (by omega)]
    congr 2
    omega
  have hget : sizes.getD (sizes.length - 9) 0 = sizes[sizes.length - 9] :=
    List.getD_eq_getElem _ _ _
  have hhead : (sizes ++ [n]).headD 0 = sizes.headD 0 := by
    cases sizes with
    | nil => simp at h
    | cons m rest => rfl
  unfold sizeCounter
  rw [List.length_append, List.length_singleton, if_neg (by omega), if_neg (by omega),
    List.rtake_concat_succ, hsplit, hhead, hget]
  simp only [List.sum_append, List.sum_cons, List.sum_nil]
  omega

private theorem getElem?_concat_cases {α : Type*} (xs : List α) (x y : α) (i : ℕ)
    (h : (xs ++ [x])[i]? = some y) :
    (xs[i]? = some y ∧ i < xs.length) ∨ (i = xs.length ∧ y = x) := by
  rcases Nat.lt_trichotomy i xs.length with hlt | heq | hgt
  · rw [List.getElem?_append_left hlt] at h
    exact Or.inl ⟨h, hlt⟩
  · subst heq
    rw [List.getElem?_concat_length] at h
    exact Or.inr ⟨rfl, (Option.some.inj h).symm⟩
  · rw [List.getElem?_eq_none (by simp; omega)] at h
    cases h

namespace Holds

variable {k : Kernel} {es : List BufferEntry} {cmds : List (List UInt8)}

/-- Adding the collected command, whatever happens to the evicted block. -/
theorem push (h : Holds k es cmds) (tmp : ℕ) (bytes : List UInt8) (heap : Heap UInt8)
    (bufferSize : ℕ) (hcache : k.dev.entryCache = ⟨some tmp, bytes.length⟩)
    (hne : bytes ≠ []) (htmp : heap.data tmp = some bytes)
    (hheap : ∀ i e p, es.length + 1 ≤ i + 10 → es[i]? = some e → e.buffptr = some p →
      heap.data p = k.heap.data p)
    (hsize : bufferSize = sizeCounter ((cmds ++ [bytes]).map List.length) % 2 ^ 64) :
    Holds ⟨⟨(k.dev.circularBuffer.addEntry k.dev.entryCache).1, ⟨none, 0⟩, bufferSize⟩, heap⟩
      (es ++ [k.dev.entryCache]) (cmds ++ [bytes]) := by
  have hold : ∀ i e, es.length + 1 ≤ i + 10 → es[i]? = some e → e.buffptr ≠ some tmp := by
    intro i e hi he hp
    apply h.apart i e (by omega) he
    rw [hp, hcache]
  have hstored : ∀ i e c, (es ++ [k.dev.entryCache]).length ≤ i + 10 →
      (es ++ [k.dev.entryCache])[i]? = some e → (cmds ++ [bytes])[i]? = some c →
      Stored heap e c := by
    intro i e c hi he hc
    rw [List.length_append, List.length_singleton] at hi
    rcases getElem?_concat_cases es _ e i he with ⟨he, hlt⟩ | ⟨rfl, rfl⟩
    · rw [List.getElem?_append_left (by rw [← h.length_eq]; exact hlt)] at hc
      obtain ⟨p, rfl, hp⟩ := h.stored i e c (by omega) he hc
      exact ⟨p, rfl, by rw [hheap i _ p hi he rfl]; exact hp⟩
    · rw [h.length_eq, List.getElem?_concat_length] at hc
      cases Option.some.inj hc
      exact ⟨tmp, hcache, htmp⟩
  constructor
  · exact h.tracks.addEntry k.dev.entryCache
  · simp [h.sizes, hcache]
  · intro cmd hcmd
    rcases List.mem_append.mp hcmd with hold' | hnew
    · exact h.nonempty cmd hold'
    · rw [List.mem_singleton.mp hnew]
      exact hne
  · exact hstored
  · intro i j e f hi hj he hf hef
    rw [List.length_append, List.length_singleton] at hi hj
    rcases getElem?_concat_cases es _ e i he with ⟨he, _⟩ | ⟨rfl, rfl⟩
    · rcases getElem?_concat_cases es _ f j hf with ⟨hf, _⟩ | ⟨rfl, rfl⟩
      · exact h.distinct i j e f (by omega) (by omega) he hf hef
      · exact absurd (hef.trans (by rw [hcache])) (hold i e hi he)
    · rcases getElem?_concat_cases es _ f j hf with ⟨hf, _⟩ | ⟨rfl, rfl⟩
      · exact absurd (hef.symm.trans (by rw [hcache])) (hold j f hj hf)
      · rfl
  · intro i e hi he hnull
    rcases getElem?_concat_cases es _ e i he with ⟨he', hlt⟩ | ⟨rfl, rfl⟩
    · obtain ⟨c, hc⟩ := h.exists_cmd i e he'
      obtain ⟨p, rfl, _⟩ := h.stored i e c
        (by rw [List.length_append, List.length_singleton] at hi; omega) he' hc
      cases hnull
    · rw [hcache] at hnull
      cases hnull
  · exact hsize

/-- On a full buffer the size taken off the counter is read from the slot
behind the one just written: it belongs to the second oldest command. -/
theorem size_taken_off (h : Holds k es cmds) (e : BufferEntry) (hge : 10 ≤ es.length) :
    ((k.dev.circularBuffer.addEntry e).1.slot (k.dev.circularBuffer.addEntry e).1.inOffs).size =
      (cmds.map List.length).getD ((cmds.map List.length).length - 9) 0 := by
  have hlen : (es ++ [e]).length = es.length + 1 := by simp
  rw [(h.tracks.addEntry e).oldest (by decide) (hlen ▸ Nat.le_add_right_of_le hge)]
  have hidx : (es ++ [e]).length - maxWriteOperationsSupported = es.length - 9 := by
    rw [hlen, maxWriteOperationsSupported]
    omega
  have hlt : es.length - 9 < es.length := by omega
  simp only [hidx]
  rw [List.getElem_append_left hlt, ← h.sizes, List.length_map,
    List.getD_eq_getElem _ _ (by rw [List.length_map]; exact hlt), List.getElem_map]

/-- The hand-over of a collected command always has a result: the block it
frees is that of the evicted command, which is allocated and not shared. -/
theorem handOver (h : Holds k es cmds) (tmp : ℕ) (bytes : List UInt8)
    (hcache : k.dev.entryCache = ⟨some tmp, bytes.length⟩) (hne : bytes ≠ [])
    (htmp : k.heap.data tmp = some bytes) :
    ∃ k', handOver k = some k' ∧ k'.dev.entryCache = ⟨none, 0⟩ ∧
      Holds k' (es ++ [k.dev.entryCache]) (cmds ++ [bytes]) := by
  have hfree := h.tracks.addEntry_snd k.dev.entryCache
  have hlen : es.length = (cmds.map List.length).length := by rw [List.length_map, h.length_eq]
  have hcounter := h.counter
  have hcs : k.dev.entryCache.size = bytes.length := by rw [hcache]
  have hmap : (cmds ++ [bytes]).map List.length = cmds.map List.length ++ [bytes.length] := by
    simp
  by_cases hlt : es.length < 10
  · rw [if_pos hlt] at hfree
    have hnext := sizeCounter_concat_of_lt (cmds.map List.length) bytes.length (hlen ▸ hlt)
    refine ⟨_, ?_, ?_, h.push tmp bytes k.heap
      (sizeT (k.dev.bufferSize + k.dev.entryCache.size)) hcache hne htmp
      (fun _ _ _ _ _ _ => rfl) ?_⟩
    · simp only [Driver.handOver, hfree, Heap.kfree, Option.map_some]
    · rfl
    · rw [hmap, hnext, hcounter, hcs]
      unfold sizeT
      omega
  · have hge : 10 ≤ es.length := by omega
    have hold : es[es.length - 10]? = some es[es.length - 10] := List.getElem?_eq_getElem _
    obtain ⟨c, hc⟩ := h.exists_cmd _ _ hold
    obtain ⟨q, hq, hqc⟩ := h.stored _ _ c (by omega) hold hc
    have hpq : (k.dev.circularBuffer.addEntry k.dev.entryCache).2 = some q := by
      rw [hfree, if_neg hlt]
      change (es[es.length - 10]?).bind BufferEntry.buffptr = some q
      rw [hold, hq]
      rfl
    have hsome : (k.heap.data q).isSome = true := by rw [hqc]; rfl
    have htq : tmp ≠ q := by
      rintro rfl
      exact h.apart _ _ (by omega) hold (by rw [hq, hcache])
    have hnext := sizeCounter_concat_of_le (cmds.map List.length) bytes.length (hlen ▸ hge)
    have hlast := h.size_taken_off k.dev.entryCache hge
    refine ⟨_, ?_, ?_, h.push tmp bytes (k.heap.erase q)
      (sizeT (sizeT (k.dev.bufferSize -
        (cmds.map List.length).getD ((cmds.map List.length).length - 9) 0) +
        k.dev.entryCache.size)) hcache hne ?_ ?_ ?_⟩
    · simp only [Driver.handOver, hpq, hlast, Heap.kfree, hsome, if_true, Option.map_some]
    · rfl
    · rw [Store.data_erase_of_ne _ htq]
      exact htmp
    · intro i e p hi he hp
      apply Store.data_erase_of_ne
      rintro rfl
      have := h.distinct i (es.length - 10) e _ (by omega) (by omega) he hold (by rw [hp, hq])
      omega
    · rw [hmap, hcounter, hcs]
      unfold sizeT
      omega

end Holds

end Aesd.Driver
