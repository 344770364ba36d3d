import Aesd.ReadDrain

/-!
The lookup for all widths. Its running total is cut to 32 bits and the offset that
it stores to 16 bits. With a live total below 2^32 only the second cut can be seen:
the offset is right up to 65535 and wrong from there on. Without any bound the
offset is still inside the entry, so a read never leaves the block.
-/
namespace Aesd.CircularBuffer

open Segments

/-- The stored offset is the distance from the total so far, cut to 16 bits, also
when the total or the entry does not fit in 32 bits. -/
theorem lastIndex_eq (charOffset before size : ℕ) (hle : before ≤ charOffset) :
    lastIndex charOffset (uint32 (before + size)) size = (charOffset - before) % 2 ^ 16 := by
  unfold lastIndex uint16 uint32 sizeT
  omega

/-- With exact sums the walk finds the entry, and the offset is cut to 16 bits. -/
theorem walk_eq_locate_mod (charOffset before : ℕ) (sizes : List ℕ) (hle : before ≤ charOffset)
    (htotal : before + sizes.sum < 2 ^ 32) :
    walk charOffset before sizes =
      (locate sizes (charOffset - before)).map (fun q => (q.1, q.2 % 2 ^ 16)) := by
  induction sizes generalizing before with
  | nil => rfl
  | cons size rest ih =>
    rw [List.sum_cons] at htotal
    have h32 : uint32 ((before : ℤ) + size) = before + size := by
      have := uint32_of_lt (before + size) (by omega)
      simpa using this
    have hlast := lastIndex_eq charOffset before size hle
    rw [h32] at hlast
    rw [walk, locate, h32]
    by_cases hlt : charOffset < before + size
    · rw [if_pos hlt, if_pos (by omega), hlast, Option.map_some]
    · rw [if_neg hlt, if_neg (by omega), ih (before + size) (by omega) (by omega), Nat.sub_sub,
        Option.map_map, Option.map_map]
      rfl

/-- Position `charOffset` lies in piece `i`. -/
def Contains (sizes : List ℕ) (charOffset i : ℕ) : Prop :=
  ∃ h : i < sizes.length,
    (sizes.take i).sum ≤ charOffset ∧ charOffset < (sizes.take i).sum + sizes[i]

theorem contains_iff (sizes : List ℕ) (charOffset i : ℕ) :
    Contains sizes charOffset i ↔
      locate sizes charOffset = some (i, charOffset - (sizes.take i).sum) := by
  rw [locate_eq_some_iff]
  constructor
  · intro h
    obtain ⟨hi, hle, hlt⟩ := h
    exact ⟨hi, by omega, by omega⟩
  · intro h
    obtain ⟨hi, hlt, hsum⟩ := h
    exact ⟨hi, by omega, by omega⟩

/-- What the doc comment promises: `NULL` past the end, otherwise the one live entry
at the position and the exact offset in it. -/
structure LookupExact (buffer : CircularBuffer) (charOffset : ℕ) : Prop where
  null_iff : buffer.findEntryOffsetForFpos charOffset = some none ↔
    buffer.liveSizes.sum ≤ charOffset
  found : charOffset < buffer.liveSizes.sum →
    ∃ i, Contains buffer.liveSizes charOffset i ∧
      (∀ j, Contains buffer.liveSizes charOffset j → j = i) ∧
      buffer.findEntryOffsetForFpos charOffset =
        some (some ((buffer.outOffs + i) % 10, charOffset - (buffer.liveSizes.take i).sum))

theorem find_eq_mod (buffer : CircularBuffer) (charOffset : ℕ) (hin : buffer.inOffs < 10)
    (hout : buffer.outOffs < 10) (htotal : buffer.liveSizes.sum < 2 ^ 32) :
    buffer.findEntryOffsetForFpos charOffset =
      some ((locate buffer.liveSizes charOffset).map
        (fun q => ((buffer.outOffs + q.1) % 10, q.2 % 2 ^ 16))) := by
  rw [findEntryOffsetForFpos_eq_walk buffer charOffset hin hout,
    walk_eq_locate_mod charOffset 0 _ (Nat.zero_le _) (by omega), Nat.sub_zero, Option.map_map]
  rfl

/-- The lookup on a buffer filled from the start is exact at a position if and only
if the position is less than 65536 bytes into its entry. -/
theorem lookup_exact_iff (es : List BufferEntry) (charOffset : ℕ)
    (htotal : (init.addEntries es).1.liveSizes.sum < 2 ^ 32) :
    LookupExact (init.addEntries es).1 charOffset ↔
      ∀ i, Contains (init.addEntries es).1.liveSizes charOffset i →
        charOffset < ((init.addEntries es).1.liveSizes.take i).sum + 65536 := by
  have htracks := tracks_addEntries es
  have hfind := find_eq_mod (init.addEntries es).1 charOffset htracks.inOffs_lt
    htracks.outOffs_lt htotal
  generalize (init.addEntries es).1 = buffer at *
  constructor
  · intro h i hi
    have hloc := (contains_iff _ _ _).mp hi
    have hlt : charOffset < buffer.liveSizes.sum := by
      by_contra hge
      rw [(locate_eq_none_iff _ _).mpr (Nat.le_of_not_lt hge)] at hloc
      cases hloc
    obtain ⟨j, hj, hunique, hfound⟩ := h.found hlt
    cases hunique i hi
    rw [hfind, hloc, Option.map_some] at hfound
    simp only [Option.some.injEq, Prod.mk.injEq, true_and] at hfound
    obtain ⟨_, hle, _⟩ := hi
    omega
  · intro hsmall
    constructor
    · rw [hfind, Option.some.injEq, Option.map_eq_none_iff, locate_eq_none_iff]
    · intro hlt
      obtain ⟨i, o, hloc⟩ := locate_of_lt _ _ hlt
      obtain ⟨hi, ho, hsum⟩ := (locate_eq_some_iff _ _ _ _).mp hloc
      have hcontains : Contains buffer.liveSizes charOffset i := ⟨hi, by omega, by omega⟩
      have hoff := hsmall i hcontains
      refine ⟨i, hcontains, ?_, ?_⟩
      · intro j hj
        have hsame := (contains_iff _ _ _).mp hj
        rw [hloc] at hsame
        cases hsame
        rfl
      · rw [hfind, hloc, Option.map_some]
        simp only [Option.some.injEq, Prod.mk.injEq, true_and]
        omega

/-- In a short and a long entry, the position two bytes into the long one. -/
theorem lookup_exact_long_entry :
    LookupExact (init.addEntries [⟨some 0, 3⟩, ⟨some 1, 70000⟩]).1 5 := by
  apply (lookup_exact_iff [⟨some 0, 3⟩, ⟨some 1, 70000⟩] 5 (by decide)).mpr
  intro i _
  omega

/-- At position 65536 of an entry of 70000 bytes the stored offset is 0. -/
theorem lookup_offset_wrong :
    ∃ es charOffset, (init.addEntries es).1.liveSizes.sum < 2 ^ 32 ∧
      charOffset < (init.addEntries es).1.liveSizes.sum ∧
      (init.addEntries es).1.findEntryOffsetForFpos charOffset = some (some (0, 0)) ∧
      ¬ LookupExact (init.addEntries es).1 charOffset := by
  have hfind : (init.addEntries [⟨some 0, 70000⟩]).1.findEntryOffsetForFpos 65536 =
      some (some (0, 0)) := by decide
  refine ⟨[⟨some 0, 70000⟩], 65536, by decide, by decide, hfind, ?_⟩
  intro hexact
  obtain ⟨i, ⟨hi, _, _⟩, _, hfound⟩ := hexact.found (by decide)
  have hlen : (init.addEntries [⟨some 0, 70000⟩]).1.liveSizes.length = 1 := by decide
  have hzero : i = 0 := by omega
  subst hzero
  rw [hfind] at hfound
  simp at hfound

/-- The machine sums of the walk, without any bound on the sizes: an entry at which
the 32-bit total passes the position is either reached without a wrap, or it is
itself longer than 2^32. -/
theorem walk_offset_lt (charOffset totalSz : ℕ) (sizes : List ℕ) (hle : totalSz ≤ charOffset)
    (i o : ℕ) (h : walk charOffset totalSz sizes = some (i, o)) :
    ∃ hi : i < sizes.length, o < sizes[i] ∧ o < 2 ^ 16 := by
  induction sizes generalizing totalSz i with
  | nil => cases h
  | cons size rest ih =>
    rw [walk] at h
    split at h
    · rename_i hgt
      rw [lastIndex_eq charOffset totalSz size hle] at h
      cases h
      refine ⟨by simp, ?_, Nat.mod_lt _ (by decide)⟩
      rw [List.getElem_cons_zero]
      unfold uint32 at hgt
      omega
    · rename_i hngt
      obtain ⟨q, hq, heq⟩ := Option.map_eq_some_iff.mp h
      cases heq
      obtain ⟨hi, hlt, h16⟩ := ih (uint32 (totalSz + size)) (Nat.le_of_not_lt hngt) q.1 hq
      exact ⟨by simpa using hi, by simpa using hlt, h16⟩

/-- For every ring with offsets inside the array the lookup ends, and a stored offset
is inside the entry. -/
theorem find_offset_lt (buffer : CircularBuffer) (charOffset : ℕ) (hin : buffer.inOffs < 10)
    (hout : buffer.outOffs < 10) :
    ∃ found, buffer.findEntryOffsetForFpos charOffset = some found ∧
      ∀ idx off, found = some (idx, off) →
        idx < 10 ∧ off < (buffer.slot idx).size ∧ off < 2 ^ 16 := by
  refine ⟨_, findEntryOffsetForFpos_eq_walk buffer charOffset hin hout, ?_⟩
  intro idx off hfound
  obtain ⟨q, hq, heq⟩ := Option.map_eq_some_iff.mp hfound
  cases heq
  obtain ⟨hi, hlt, h16⟩ := walk_offset_lt charOffset 0 _ (Nat.zero_le _) q.1 q.2 hq
  refine ⟨Nat.mod_lt _ (by decide), ?_, h16⟩
  simpa only [liveSizes, List.getElem_map, getElem_live] using hlt

/-- A 32-bit total never passes a position from 2^32 on. -/
theorem walk_eq_none (charOffset totalSz : ℕ) (sizes : List ℕ) (h : 2 ^ 32 ≤ charOffset) :
    walk charOffset totalSz sizes = none := by
  induction sizes generalizing totalSz with
  | nil => rfl
  | cons size rest ih =>
    have hlt := uint32_lt (totalSz + size)
    rw [walk, if_neg (by omega), ih, Option.map_none]

/-- The inner loop of the lookup: a 16-bit index counts up to the stored offset. -/
def pointerLoop (lastIndex : ℕ) : ℕ → ℕ → Option ℕ
  | 0, _ => none
  | fuel + 1, startIndex =>
      if startIndex ≠ lastIndex then pointerLoop lastIndex fuel (uint16 (startIndex + 1))
      else some startIndex

theorem pointerLoop_ends (lastIndex startIndex : ℕ) (hle : startIndex ≤ lastIndex)
    (hlt : lastIndex < 2 ^ 16) :
    pointerLoop lastIndex (lastIndex - startIndex + 1) startIndex = some lastIndex := by
  obtain ⟨n, hn⟩ : ∃ n, lastIndex - startIndex = n := ⟨_, rfl⟩
  rw [hn]
  induction n generalizing startIndex with
  | zero =>
    have heq : startIndex = lastIndex := by omega
    rw [pointerLoop, if_neg (by simpa using heq), heq]
  | succ n ih =>
    have hnext : uint16 ((startIndex : ℤ) + 1) = startIndex + 1 := by
      unfold uint16
      omega
    rw [pointerLoop, if_pos (by omega), hnext, ih (startIndex + 1) (by omega) (by omega)]

end Aesd.CircularBuffer

namespace Aesd.Driver

open CircularBuffer

/-- What a read does with the offset `off` found for `charOffset` in slot `idx`: the
subtraction does not wrap, the bytes copied are inside the entry, and there is one
at least. -/
structure ReadInside (k : Kernel) (charOffset idx off : ℕ) : Prop where
  offset_lt : off < (k.dev.circularBuffer.slot idx).size
  loop_ends : pointerLoop off (off + 1) 0 = some off
  available : sizeT ((k.dev.circularBuffer.slot idx).size - off) =
    (k.dev.circularBuffer.slot idx).size - off
  range : ∀ count, off + min count ((k.dev.circularBuffer.slot idx).size - off) ≤
    (k.dev.circularBuffer.slot idx).size
  progress : ∀ count, 1 ≤ count → 1 ≤ min count ((k.dev.circularBuffer.slot idx).size - off)
  result : ∀ count p block fPos, count < 2 ^ 63 → sizeT fPos = charOffset →
    k.dev.circularBuffer.slot idx = ⟨some p, block.length⟩ → k.heap.data p = some block →
    aesdRead k fPos count 0 =
      some ⟨loffT (fPos + (min count (block.length - off) : ℕ)),
        (min count (block.length - off) : ℕ),
        (block.drop off).take (min count (block.length - off))⟩

/-- For every ring with offsets inside the array and any 64-bit sizes, at every
position, the lookup ends, and the read stays inside the entry found. -/
theorem read_stays_inside (k : Kernel) (charOffset : ℕ)
    (hin : k.dev.circularBuffer.inOffs < 10) (hout : k.dev.circularBuffer.outOffs < 10)
    (hsizes : ∀ i < 10, (k.dev.circularBuffer.slot i).size < 2 ^ 64) :
    ∃ found, k.dev.circularBuffer.findEntryOffsetForFpos charOffset = some found ∧
      ∀ idx off, found = some (idx, off) → ReadInside k charOffset idx off := by
  obtain ⟨found, hfind, hinside⟩ := find_offset_lt k.dev.circularBuffer charOffset hin hout
  refine ⟨found, hfind, ?_⟩
  intro idx off hfound
  obtain ⟨hidx, hlt, h16⟩ := hinside idx off hfound
  have hsize := hsizes idx hidx
  constructor
  · exact hlt
  · exact pointerLoop_ends off 0 (Nat.zero_le _) h16
  · unfold sizeT
    omega
  · intro count
    omega
  · intro count hcount
    omega
  · intro count p block fPos hcount hpos hslot hp
    rw [hslot] at hlt hsize
    rw [aesdRead, hpos, hfind, hfound, Option.bind_some]
    simp only
    rw [copyEntry_eq k fPos count idx off block ⟨p, hslot, hp⟩ hlt.le hsize,
      loffT_of_range (min count (block.length - off) : ℕ) (by omega) (by omega)]

/-- What a read of `count` bytes at `pos` delivers of the commands `cmds`. -/
def dataAt (cmds : List (List UInt8)) (pos : ℤ) (count : ℕ) : List UInt8 :=
  match walk (sizeT pos) 0 (cmds.map List.length) with
  | none => []
  | some (i, off) => ((cmds.getD i []).drop off).take count

/-- A read finds no command at its position, or it copies from the one it finds. -/
theorem Shows.read_cases {k : Kernel} {cmds : List (List UInt8)} (h : Shows k cmds) (pos : ℤ)
    (count uncopied : ℕ) :
    (walk (sizeT pos) 0 (cmds.map List.length) = none ∧
      aesdRead k pos count uncopied = some ⟨pos, 0, []⟩) ∨
    ∃ (i off : ℕ) (hi : i < cmds.length),
      walk (sizeT pos) 0 (cmds.map List.length) = some (i, off) ∧ off < cmds[i].length ∧
      Stored k.heap (k.dev.circularBuffer.slot ((k.dev.circularBuffer.outOffs + i) % 10)) cmds[i] ∧
      aesdRead k pos count uncopied =
        copyEntry k pos count uncopied ((k.dev.circularBuffer.outOffs + i) % 10) off := by
  rw [aesdRead, findEntryOffsetForFpos_eq_walk _ _ h.inOffs_lt h.outOffs_lt, h.liveSizes_eq,
    Option.bind_some]
  cases hwalk : walk (sizeT pos) 0 (cmds.map List.length) with
  | none => exact Or.inl ⟨rfl, rfl⟩
  | some q =>
    obtain ⟨hi, hlt, _⟩ := walk_offset_lt _ 0 _ (Nat.zero_le _) q.1 q.2 hwalk
    rw [List.length_map] at hi
    rw [List.getElem_map] at hlt
    exact Or.inr ⟨q.1, q.2, hi, rfl, hlt, h.stored q.1 _ (List.getElem?_eq_getElem hi), rfl⟩

/-- A read sees nothing of the device but its commands, for all widths. -/
theorem Shows.read_dataAt {k : Kernel} {cmds : List (List UInt8)} (h : Shows k cmds)
    (hlen : ∀ cmd ∈ cmds, cmd.length < 2 ^ 64) (pos : ℤ) (count : ℕ) (hpos : 0 < count)
    (hcount : count < 2 ^ 63) :
    aesdRead k pos count 0 = some ⟨if dataAt cmds pos count = [] then pos
      else loffT (pos + (dataAt cmds pos count).length), (dataAt cmds pos count).length,
        dataAt cmds pos count⟩ := by
  rcases h.read_cases pos count 0 with ⟨hnone, hread⟩ | ⟨i, off, hi, hfound, hlt, hslot, hread⟩
  · rw [hread, dataAt, hnone]
    rfl
  · have hmin : ((cmds[i].drop off).take count).length = min count (cmds[i].length - off) := by
      rw [List.length_take, List.length_drop]
    have htake : (cmds[i].drop off).take (min count (cmds[i].length - off)) =
        (cmds[i].drop off).take count := by
      rw [← List.length_drop]
      exact List.take_eq_take_min.symm
    have hne : (cmds[i].drop off).take count ≠ [] := by
      apply List.ne_nil_of_length_pos
      omega
    have hret : loffT (((cmds[i].drop off).take count).length : ℤ) =
        ((cmds[i].drop off).take count).length :=
      loffT_of_range _ (by omega) (by omega)
    rw [hread, dataAt, hfound]
    simp only [List.getD_eq_getElem _ _ hi, if_neg hne]
    rw [copyEntry_eq k pos count _ off _ hslot hlt.le (hlen _ (List.getElem_mem hi)), htake,
      ← hmin, hret]

theorem dataAt_length_le (cmds : List (List UInt8)) (pos : ℤ) (count : ℕ) :
    (dataAt cmds pos count).length ≤ count := by
  unfold dataAt
  split
  · exact Nat.zero_le _
  · rw [List.length_take]
    omega

/-- Where a read delivers something, the position is below 2^32. -/
theorem lt_of_dataAt_ne_nil {cmds : List (List UInt8)} {pos : ℤ} {count : ℕ}
    (h : dataAt cmds pos count ≠ []) : sizeT pos < 2 ^ 32 := by
  by_contra hge
  apply h
  rw [dataAt, walk_eq_none _ _ _ (Nat.le_of_not_lt hge)]

/-- On small commands a read delivers the content from its position on, and nothing
only at the end. -/
theorem Small.dataAt {cmds : List (List UInt8)} (hsmall : Small cmds) (p count : ℕ)
    (hp : p < 2 ^ 63) (hcount : 0 < count) :
    dataAt cmds p count <+: cmds.flatten.drop p ∧
      (dataAt cmds p count = [] → cmds.flatten.length ≤ p) := by
  rw [Driver.dataAt, sizeT_of_lt p (by omega), walk_eq_locate _ p (hsmall.walkFits p)]
  cases hloc : Segments.locate (cmds.map List.length) p with
  | none =>
    rw [Segments.locate_eq_none_iff, ← List.length_flatten] at hloc
    exact ⟨List.nil_prefix, fun _ => hloc⟩
  | some q =>
    obtain ⟨hi, hlt, hsum⟩ := (Segments.locate_eq_some_iff _ _ _ _).mp hloc
    rw [List.length_map] at hi
    rw [List.getElem_map] at hlt
    have hdrop := Segments.drop_flatten cmds q.1 q.2 hi hlt.le
    simp only [List.getD_eq_getElem _ _ hi]
    constructor
    · rw [← hsum, hdrop]
      exact (List.take_prefix _ _).trans (List.prefix_append _ _)
    · intro hnil
      have hlength := congrArg List.length hnil
      rw [List.length_take, List.length_drop, List.length_nil] at hlength
      omega

/-- A ring of which one entry is longer than 2^32: the read at position 1. -/
def wideKernel : Kernel where
  dev := ⟨(CircularBuffer.init.addEntries [⟨some 0, 3⟩, ⟨none, 2 ^ 32 + 7⟩]).1, ⟨none, 0⟩, 3⟩
  heap := Store.empty.set 0 [97, 98, 10]

theorem read_inside_wide :
    wideKernel.dev.circularBuffer.findEntryOffsetForFpos 1 = some (some (0, 1)) ∧
      ReadInside wideKernel 1 0 1 ∧ aesdRead wideKernel 1 9 0 = some ⟨3, 2, [98, 10]⟩ := by
  have hfind : wideKernel.dev.circularBuffer.findEntryOffsetForFpos 1 = some (some (0, 1)) := by
    decide
  obtain ⟨found, hfound, hinside⟩ := read_stays_inside wideKernel 1 (by decide) (by decide)
    (by decide)
  cases Option.some.inj (hfind.symm.trans hfound)
  have hread := hinside 0 1 rfl
  exact ⟨hfind, hread, hread.result 9 0 [97, 98, 10] 1 (by decide) (by decide) rfl rfl⟩

end Aesd.Driver
