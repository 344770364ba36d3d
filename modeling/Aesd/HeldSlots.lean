import Aesd.ReadDrain

/-!
Readers and writers on one device. A write runs under the lock and is one step; a read takes
no lock and is two steps, the lookup of a slot and the copy from that slot. As long as the
command it has looked up is in the slot, the copy is that of this command.
-/
namespace Aesd.ConcurrentReads

open Driver Segments

/-- A read between its lookup and its copy. -/
structure Reading where
  pos : ℤ
  count : ℕ
  idx : ℕ
  entryOffset : ℕ
  deriving DecidableEq

/-- Every task has an open file of its own and reads or writes through it. -/
structure State where
  kernel : Kernel
  fPos : ℕ → ℤ
  reading : ℕ → Option Reading

inductive Act
  | write (i : ℕ) (call : WriteCall)
  | lookup (i count : ℕ)
  | copy (i uncopied : ℕ)

def Act.task : Act → ℕ
  | .write i _ => i
  | .lookup i _ => i
  | .copy i _ => i

def init : State := ⟨aesdInitModule, fun _ => 0, fun _ => none⟩

/-- The copy that task `i` is about to make. -/
def State.copyNow (s : State) (rd : Reading) (uncopied : ℕ) : Option ReadResult :=
  copyEntry s.kernel rd.pos rd.count uncopied rd.idx rd.entryOffset

def step (s : State) : Act → Option State
  | .write i call =>
      if (s.reading i).isSome then none
      else (aesdWrite s.kernel { call with fPos := s.fPos i }).map (fun r =>
        { s with kernel := r.kernel, fPos := Function.update s.fPos i r.fPos })
  | .lookup i count =>
      if (s.reading i).isSome then none
      else (s.kernel.dev.circularBuffer.findEntryOffsetForFpos (sizeT (s.fPos i))).map
        (fun found => match found with
          | none => s
          | some (idx, entryOffset) =>
              let rd : Reading := ⟨s.fPos i, count, idx, entryOffset⟩
              { s with reading := Function.update s.reading i (some rd) })
  | .copy i uncopied =>
      (s.reading i).bind (fun rd => (s.copyNow rd uncopied).map (fun r =>
        { s with fPos := Function.update s.fPos i r.fPos
                 reading := Function.update s.reading i none }))

/-- What a read of `count` bytes at position `p` is to return. -/
def contentRead (cmds : List (List UInt8)) (p count : ℕ) : List UInt8 :=
  match locate (cmds.map List.length) p with
  | none => []
  | some (i, o) => ((cmds.getD i []).drop o).take count

/-- Each read that has done its lookup copies what the device held at the file
position at one moment since the lookup; a copy that faults stops early. -/
def ReadsConsistent (acts : List Act) : Prop :=
  ∀ done i count since s rd, acts = done ++ .lookup i count :: since →
    (∀ a ∈ since, a.task ≠ i) → Runs.run step init acts = some s → s.reading i = some rd →
    ∃ since' rest t cmds, since = since' ++ rest ∧
      Runs.run step init (done ++ .lookup i count :: since') = some t ∧
      t.kernel.LiveCommands cmds ∧
      ∀ uncopied, ∃ r, s.copyNow rd uncopied = some r ∧
        r.data <+: contentRead cmds rd.pos.toNat rd.count ∧
        (uncopied = 0 → r.data = contentRead cmds rd.pos.toNat rd.count ∧
          r.retval = r.data.length)

/-- No write completes a command into the slot of a full ring that some reader
holds, and each lookup is made where its machine sums are exact. -/
def Undisturbed (s : State) : Act → Prop
  | .write _ call => s.kernel.dev.circularBuffer.full = true → call.Closes →
      ∀ j rd, s.reading j = some rd → rd.idx ≠ s.kernel.dev.circularBuffer.inOffs
  | .lookup i _ => CircularBuffer.WalkFits s.kernel.dev.circularBuffer.liveSizes
      (s.fPos i).toNat
  | .copy _ _ => True

/-- Slot `idx` belongs to a live command, and that command is `c`. -/
def Pinned (cmds : List (List UInt8)) (idx : ℕ) (c : List UInt8) : Prop :=
  ∃ j, cmds.length ≤ j + 10 ∧ cmds[j]? = some c ∧ idx = j % 10

theorem Pinned.stored {k : Kernel} {es : List BufferEntry} {cmds : List (List UInt8)}
    {idx : ℕ} {c : List UInt8} (h : Pinned cmds idx c) (hholds : Holds k es cmds) :
    Stored k.heap (k.dev.circularBuffer.slot idx) c := by
  obtain ⟨j, hj, hc, rfl⟩ := h
  obtain ⟨hlt, _⟩ := List.getElem?_eq_some_iff.mp hc
  have hlen := hholds.length_eq
  have hlt' : j < es.length := by omega
  have hslot : k.dev.circularBuffer.slot (j % 10) = es[j] :=
    hholds.tracks.stored j hlt' (show es.length ≤ j + 10 by omega)
  rw [hslot]
  exact hholds.stored j _ c (by omega) (List.getElem?_eq_getElem hlt') hc

/-- A write keeps a pinned command in its slot unless it is put into that slot. -/
theorem write_pinned {k : Kernel} {es : List BufferEntry} {cmds : List (List UInt8)}
    (hholds : Holds k es cmds) (call : WriteCall) (r : WriteResult)
    (hw : aesdWrite k call = some r) :
    ∃ es' cmds', Holds r.kernel es' cmds' ∧ ∀ idx c, Pinned cmds idx c →
      (k.dev.circularBuffer.full = true → call.Closes →
        idx ≠ k.dev.circularBuffer.inOffs) → Pinned cmds' idx c := by
  obtain ⟨es', cmds', hholds', hgrow⟩ := hholds.write call r hw
  refine ⟨es', cmds', hholds', ?_⟩
  rintro idx c ⟨j, hj, hc, rfl⟩ hfree
  rcases hgrow with rfl | ⟨hcloses, cmd, rfl⟩
  · exact ⟨j, hj, hc, rfl⟩
  · obtain ⟨hlt, _⟩ := List.getElem?_eq_some_iff.mp hc
    have hlen := hholds.length_eq
    have hin : k.dev.circularBuffer.inOffs = es.length % 10 := hholds.tracks.in_eq
    have hfull : k.dev.circularBuffer.full = true ↔ 10 ≤ es.length := hholds.tracks.full_iff
    refine ⟨j, ?_, ?_, rfl⟩
    · rw [List.length_append, List.length_singleton]
      by_contra hevicted
      have hne := hfree (hfull.mpr (by omega)) hcloses
      omega
    · rw [List.getElem?_append_left hlt]
      exact hc

/-- A held slot: the command in it, and where the read is inside that command. -/
def HeldBy (cmds : List (List UInt8)) (rd : Reading) : Prop :=
  ∃ c before, Pinned cmds rd.idx c ∧ rd.entryOffset < c.length ∧
    rd.pos = (before + rd.entryOffset : ℕ) ∧ before + c.length < 2 ^ 32

/-- Every reader between its lookup and its copy still holds a live command, and
file positions are not negative. -/
structure Inv (s : State) : Prop where
  held : ∃ es cmds, Holds s.kernel es cmds ∧ ∀ i rd, s.reading i = some rd → HeldBy cmds rd
  pos_range : ∀ i, 0 ≤ s.fPos i ∧ s.fPos i < 2 ^ 63

theorem inv_init : Inv init where
  held := ⟨[], [], holds_init, fun i rd h => by simp [init] at h⟩
  pos_range i := by simp [init]

/-- The lookup of a device reached by writes pins the command at the position. -/
theorem lookup_pins {k : Kernel} {es : List BufferEntry} {cmds : List (List UInt8)}
    (hholds : Holds k es cmds) (p idx o : ℕ)
    (hfits : CircularBuffer.WalkFits k.dev.circularBuffer.liveSizes p)
    (hfind : k.dev.circularBuffer.findEntryOffsetForFpos p = some (some (idx, o))) :
    ∃ i c, locate ((cmds.rtake 10).map List.length) p = some (i, o) ∧
      (cmds.rtake 10)[i]? = some c ∧ o < c.length ∧ Pinned cmds idx c ∧
      ((cmds.rtake 10).take i).flatten.length + o = p ∧
      ((cmds.rtake 10).take i).flatten.length + c.length < 2 ^ 32 := by
  have hshows := hholds.shows
  rw [hshows.liveSizes_eq] at hfits
  rw [hshows.find_eq p hfits, Option.some.injEq, Option.map_eq_some_iff] at hfind
  obtain ⟨⟨i, o'⟩, hloc, heq⟩ := hfind
  simp only [Prod.mk.injEq] at heq
  obtain ⟨hidx, rfl⟩ := heq
  obtain ⟨hi, ho, hsum⟩ := (locate_eq_some_iff _ _ _ _).mp hloc
  have hi' : i < (cmds.rtake 10).length := by simpa using hi
  have htotal := hfits.total_lt i hi (by omega)
  rw [List.take_succ_eq_append_getElem hi, List.sum_append, List.sum_singleton,
    List.getElem_map] at htotal
  rw [List.getElem_map] at ho
  have hlen := hholds.length_eq
  have hout : k.dev.circularBuffer.outOffs = (es.length - 10) % 10 := hholds.tracks.out_eq
  refine ⟨i, (cmds.rtake 10)[i], hloc, List.getElem?_eq_getElem hi', ho, ?_, ?_, ?_⟩
  · refine ⟨cmds.length - 10 + i, by omega, ?_, by omega⟩
    rw [← List.getElem?_drop]
    exact List.getElem?_eq_getElem hi'
  · rw [flatten_take_length]
    exact hsum
  · rw [flatten_take_length]
    exact htotal

/-- The copy from a pinned slot, with or without a fault. -/
theorem copy_pinned {k : Kernel} {es : List BufferEntry} {cmds : List (List UInt8)}
    (hholds : Holds k es cmds) (rd : Reading) (c : List UInt8)
    (hpin : Pinned cmds rd.idx c) (hoff : rd.entryOffset < c.length)
    (hlen : c.length < 2 ^ 32) (uncopied : ℕ) :
    ∃ r, copyEntry k rd.pos rd.count uncopied rd.idx rd.entryOffset = some r ∧
      r.data <+: (c.drop rd.entryOffset).take rd.count ∧
      (uncopied ≠ 0 → r.fPos = rd.pos) ∧
      (uncopied = 0 → r.data = (c.drop rd.entryOffset).take rd.count ∧
        r.retval = r.data.length ∧ r.fPos = loffT (rd.pos + r.data.length)) := by
  have htake : (c.drop rd.entryOffset).take (min rd.count (c.length - rd.entryOffset)) =
      (c.drop rd.entryOffset).take rd.count := by
    rw [← List.length_drop, List.take_eq_take_iff]
    omega
  have hdata : ((c.drop rd.entryOffset).take rd.count).length =
      min rd.count (c.length - rd.entryOffset) := by
    rw [List.length_take, List.length_drop]
  have hcopy := copyEntry_stored k rd.pos rd.count uncopied rd.idx rd.entryOffset c
    (hpin.stored hholds) hoff.le (by omega)
  rw [htake] at hcopy
  refine ⟨_, hcopy, ?_, ?_, ?_⟩
  · split
    · exact List.take_prefix _ _
    · exact List.prefix_rfl
  · intro hfault
    rw [if_pos hfault]
  · intro hfull
    rw [if_neg (not_not_intro hfull), hdata]
    exact ⟨rfl, loffT_of_range _ (by omega) (by omega), rfl⟩

/-- Everything a step can do. -/
theorem step_cases {s v : State} {a : Act} (h : step s a = some v) :
    (∃ i call r, a = .write i call ∧ s.reading i = none ∧
      aesdWrite s.kernel { call with fPos := s.fPos i } = some r ∧
      v = { s with kernel := r.kernel, fPos := Function.update s.fPos i r.fPos }) ∨
    (∃ i count, a = .lookup i count ∧ s.reading i = none ∧ v = s) ∨
    (∃ i count idx o, a = .lookup i count ∧ s.reading i = none ∧
      s.kernel.dev.circularBuffer.findEntryOffsetForFpos (sizeT (s.fPos i)) =
        some (some (idx, o)) ∧
      v = { s with reading := Function.update s.reading i (some ⟨s.fPos i, count, idx, o⟩) }) ∨
    (∃ i uncopied rd r, a = .copy i uncopied ∧ s.reading i = some rd ∧
      s.copyNow rd uncopied = some r ∧
      v = { s with fPos := Function.update s.fPos i r.fPos
                   reading := Function.update s.reading i none }) := by
  cases a with
  | write i call =>
    simp only [step, Option.ite_none_left_eq_some, Bool.not_eq_true, Option.isSome_eq_false_iff,
      Option.isNone_iff_eq_none, Option.map_eq_some_iff] at h
    obtain ⟨hidle, r, hr, rfl⟩ := h
    exact Or.inl ⟨i, call, r, rfl, hidle, hr, rfl⟩
  | lookup i count =>
    simp only [step, Option.ite_none_left_eq_some, Bool.not_eq_true, Option.isSome_eq_false_iff,
      Option.isNone_iff_eq_none, Option.map_eq_some_iff] at h
    obtain ⟨hidle, found, hfound, rfl⟩ := h
    cases found with
    | none => exact Or.inr (Or.inl ⟨i, count, rfl, hidle, rfl⟩)
    | some found =>
      exact Or.inr (Or.inr (Or.inl ⟨i, count, found.1, found.2, rfl, hidle, hfound, rfl⟩))
  | copy i uncopied =>
    simp only [step, Option.bind_eq_some_iff, Option.map_eq_some_iff] at h
    obtain ⟨rd, hrd, r, hr, rfl⟩ := h
    exact Or.inr (Or.inr (Or.inr ⟨i, uncopied, rd, r, rfl, hrd, hr, rfl⟩))

theorem write_pos_range {k : Kernel} (call : WriteCall) (r : WriteResult)
    (hw : aesdWrite k call = some r) (hpos : 0 ≤ call.fPos ∧ call.fPos < 2 ^ 63) :
    0 ≤ r.fPos ∧ r.fPos < 2 ^ 63 := by
  cases aesdWrite_effect k call r hw with
  | refused errno hrefusal => exact hpos
  | faulted data head tmp heap hrefusal hfault happ => exact hpos
  | appended bytes head tmp heap k' hpayload hne hcopy happ hcommit =>
    have hbytes := payload_length_lt call bytes hpayload
    constructor
    · exact Int.natCast_nonneg _
    · show (bytes.length : ℤ) < 2 ^ 63
      omega

theorem HeldBy.copied {k : Kernel} {es : List BufferEntry} {cmds : List (List UInt8)}
    {rd : Reading} (h : HeldBy cmds rd) (hholds : Holds k es cmds) (uncopied : ℕ)
    (r : ReadResult)
    (hcopy : copyEntry k rd.pos rd.count uncopied rd.idx rd.entryOffset = some r) :
    0 ≤ r.fPos ∧ r.fPos < 2 ^ 63 := by
  obtain ⟨c, before, hpin, hoff, hpos, hlt⟩ := h
  obtain ⟨r', hr', _, hfault, hfull⟩ := copy_pinned hholds rd c hpin hoff (by omega) uncopied
  rw [hcopy] at hr'
  cases Option.some.inj hr'
  by_cases huncopied : uncopied = 0
  · obtain ⟨hdata, _, hr⟩ := hfull huncopied
    have hlen : r.data.length ≤ c.length - rd.entryOffset := by
      rw [hdata, List.length_take, List.length_drop]
      omega
    rw [hr, loffT_of_range _ (by omega) (by omega)]
    omega
  · rw [hfault huncopied]
    omega

end Aesd.ConcurrentReads
