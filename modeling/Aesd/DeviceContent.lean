import Aesd.DeviceInvariant

/-!
What the read side sees of a device reached by writes: the live slots, counted
from the read offset, hold the newest commands. This is all that reads and
seeks need to know about the way the device was filled.
-/
namespace Aesd.Driver

/-- Every defined write keeps the device invariant, also one that faults; the
ghost lists grow only in a call that completes a command. -/
theorem Holds.write {k : Kernel} {es : List BufferEntry} {cmds : List (List UInt8)}
    (h : Holds k es cmds) (call : WriteCall) (r : WriteResult)
    (hw : aesdWrite k call = some r) :
    ∃ es' cmds', Holds r.kernel es' cmds' ∧
      (cmds' = cmds ∨ call.Closes ∧ ∃ cmd, cmds' = cmds ++ [cmd]) := by
  cases aesdWrite_effect k call r hw with
  | refused errno hrefusal => exact ⟨es, cmds, h, Or.inl rfl⟩
  | faulted data head tmp heap hrefusal hfault happ =>
    exact ⟨es, cmds, h.faulted data head tmp heap happ, Or.inl rfl⟩
  | appended bytes head tmp heap k' hpayload hne hcopy happ hcommit =>
    have happended := h.appended bytes head tmp heap happ
    have hlen := happ.fits
    rw [commitEntry_eq _ tmp (head ++ bytes) rfl happ.at_tmp (by simp [hne])
      (by rw [List.length_append, happ.head_length]; exact hlen),
      getLast?_append_of_ne _ _ hne] at hcommit
    split at hcommit
    · rename_i hlast
      obtain ⟨k'', hk'', _, hholds⟩ := happended.handOver tmp (head ++ bytes) rfl
        (by simp [hne]) happ.at_tmp
      rw [hk''] at hcommit
      cases Option.some.inj hcommit
      exact ⟨_, _, hholds, Or.inr ⟨⟨hcopy, bytes, hpayload, hlast⟩, _, rfl⟩⟩
    · cases Option.some.inj hcommit
      exact ⟨es, cmds, happended, Or.inl rfl⟩

/-- In every state reached by writes the live entries hold ten newest commands. -/
theorem exists_holds (calls : List WriteCall) (k : Kernel)
    (hrun : runWrites aesdInitModule calls = some k) : ∃ es cmds, Holds k es cmds := by
  refine Runs.run_invariant (fun k => ∃ es cmds, Holds k es cmds) (fun _ _ => True)
    ⟨[], [], holds_init⟩ ?_ calls (fun _ _ _ _ _ _ => trivial) hrun
  rintro k call k' ⟨es, cmds, h⟩ _ hstep
  obtain ⟨r, hr, rfl⟩ := Option.map_eq_some_iff.mp hstep
  obtain ⟨es', cmds', h', _⟩ := h.write call r hr
  exact ⟨es', cmds', h'⟩

theorem Stored.bytesOf {k : Kernel} {entry : BufferEntry} {cmd : List UInt8}
    (h : Stored k.heap entry cmd) : k.bytesOf entry = some cmd := by
  obtain ⟨p, rfl, hp⟩ := h
  exact Heap.read_all k.heap p cmd hp

/-- What the read side relies on: the offsets are inside the array, and the live
slots, counted from `outOffs`, hold the commands `cmds`. -/
structure Shows (k : Kernel) (cmds : List (List UInt8)) : Prop where
  inOffs_lt : k.dev.circularBuffer.inOffs < 10
  outOffs_lt : k.dev.circularBuffer.outOffs < 10
  count_eq : k.dev.circularBuffer.liveCount = cmds.length
  stored : ∀ i c, cmds[i]? = some c →
    Stored k.heap (k.dev.circularBuffer.slot ((k.dev.circularBuffer.outOffs + i) % 10)) c

theorem Holds.shows {k : Kernel} {es : List BufferEntry} {cmds : List (List UInt8)}
    (h : Holds k es cmds) : Shows k (cmds.rtake 10) where
  inOffs_lt := h.tracks.inOffs_lt
  outOffs_lt := h.tracks.outOffs_lt
  count_eq := by
    rw [h.tracks.liveCount_eq, h.length_eq, List.rtake, List.length_drop,
      maxWriteOperationsSupported]
    omega
  stored i c hc := by
    obtain ⟨hi, _⟩ := List.getElem?_eq_some_iff.mp hc
    have hlen := h.length_eq
    rw [List.rtake, List.length_drop] at hi
    rw [List.rtake, List.getElem?_drop] at hc
    have hlt : es.length - 10 + i < es.length := by omega
    have hslot : k.dev.circularBuffer.slot ((es.length - 10 + i) % 10) =
        es[es.length - 10 + i] := h.tracks.stored _ hlt (show es.length ≤ _ + 10 by omega)
    have hout : k.dev.circularBuffer.outOffs = (es.length - 10) % 10 := h.tracks.out_eq
    rw [hout, Nat.mod_add_mod, hslot]
    exact h.stored _ _ c (by omega) (List.getElem?_eq_getElem hlt) (hlen ▸ hc)

namespace Shows

variable {k : Kernel} {cmds : List (List UInt8)}

theorem getElem_live (h : Shows k cmds) (i : ℕ) (hi : i < k.dev.circularBuffer.live.length) :
    ∃ c, cmds[i]? = some c ∧ Stored k.heap k.dev.circularBuffer.live[i] c := by
  have hlt : i < cmds.length := by
    rw [← h.count_eq, ← CircularBuffer.length_live]
    exact hi
  refine ⟨cmds[i], List.getElem?_eq_getElem hlt, ?_⟩
  rw [CircularBuffer.getElem_live]
  exact h.stored i _ (List.getElem?_eq_getElem hlt)

theorem liveSizes_eq (h : Shows k cmds) :
    k.dev.circularBuffer.liveSizes = cmds.map List.length := by
  apply List.ext_getElem
  · rw [CircularBuffer.length_liveSizes, h.count_eq, List.length_map]
  · intro i h1 h2
    obtain ⟨c, hc, p, he, _⟩ := h.getElem_live i (by
      simpa [CircularBuffer.liveSizes] using h1)
    obtain ⟨_, rfl⟩ := List.getElem?_eq_some_iff.mp hc
    simp only [CircularBuffer.liveSizes, List.getElem_map, he]

/-- The live total is the length of the content. -/
theorem sum_liveSizes (h : Shows k cmds) :
    k.dev.circularBuffer.liveSizes.sum = cmds.flatten.length := by
  rw [h.liveSizes_eq, List.length_flatten]

theorem liveCommands (h : Shows k cmds) : k.LiveCommands cmds := by
  apply List.ext_getElem
  · rw [List.length_map, CircularBuffer.length_live, h.count_eq, List.length_map]
  · intro i h1 h2
    obtain ⟨c, hc, hstored⟩ := h.getElem_live i (by simpa using h1)
    obtain ⟨_, rfl⟩ := List.getElem?_eq_some_iff.mp hc
    simp only [List.getElem_map]
    exact hstored.bytesOf

end Shows

theorem liveCommands_unique (k : Kernel) (cmds cmds' : List (List UInt8))
    (h : k.LiveCommands cmds) (h' : k.LiveCommands cmds') : cmds = cmds' :=
  List.map_injective_iff.mpr (Option.some_injective _) (h.symm.trans h')

end Aesd.Driver
