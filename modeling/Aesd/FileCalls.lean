import Aesd.LookupWidths
import Aesd.SeekTargets
import Aesd.SizeCounter

/-!
The calls on one open file and what each of them can do to the file position. A read
adds the number of bytes it returns, a write sets the position to its count, and the
two seeks set it to the sum they have computed; every call that fails leaves it alone.
-/
namespace Aesd.Driver

/-- An open file: the device behind it and its position. -/
structure File where
  kernel : Kernel
  fPos : ℤ

/-- The operations of `aesd_fops` that get the position, with their arguments and what
the kernel answers during the call. -/
inductive FileCall
  | read (count uncopied : ℕ)
  | write (call : WriteCall)
  | llseek (off : ℤ) (whence : Whence)
  | ioctl (cmd : ℕ) (arg : Option Seekto) (interrupted : Bool)

def FileCall.isWrite : FileCall → Bool
  | .write _ => true
  | _ => false

/-- The file after the call, and what the call returns. -/
def File.exec (f : File) : FileCall → Option (File × ℤ)
  | .read count uncopied =>
      (aesdRead f.kernel f.fPos count uncopied).map (fun r => (⟨f.kernel, r.fPos⟩, r.retval))
  | .write call =>
      (aesdWrite f.kernel { call with fPos := f.fPos }).map
        (fun r => (⟨r.kernel, r.fPos⟩, r.retval))
  | .llseek off whence =>
      let r := aesdLlseek f.kernel.dev f.fPos off whence
      some (⟨f.kernel, r.fPos⟩, r.retval)
  | .ioctl cmd arg interrupted =>
      let r := aesdIoctl f.kernel.dev f.fPos cmd arg interrupted
      some (⟨f.kernel, r.fPos⟩, r.retval)

/-- What `aesd_llseek` adds the offset to. -/
def seekBase (dev : Dev) (fPos : ℤ) : Whence → Option ℤ
  | .seekSet => some 0
  | .seekCur => some fPos
  | .seekEnd => some dev.bufferSize
  | .other => none

section Reads

variable {k : Kernel} {cmds : List (List UInt8)}

/-- A read keeps the position and returns 0 or an error, or it adds what it returns. The
bytes come from one command, and the position was below 2^32. -/
theorem Shows.read_effect (h : Shows k cmds) {fPos : ℤ} {count uncopied : ℕ} {r : ReadResult}
    (hr : aesdRead k fPos count uncopied = some r) :
    (r.fPos = fPos ∧ (r.retval = 0 ∨ uncopied ≠ 0 ∧ r.retval = -EFAULT)) ∨
      ∃ n, n ≤ count ∧ n ≤ cmds.flatten.length ∧ sizeT fPos < 2 ^ 32 ∧
        r.fPos = loffT (fPos + n) ∧ r.retval = loffT n := by
  rcases h.read_cases fPos count uncopied with
    ⟨_, hread⟩ | ⟨i, off, hi, hfound, _, ⟨p, hslot, hp⟩, hread⟩
  · rw [hread] at hr
    cases Option.some.inj hr
    exact Or.inl ⟨rfl, Or.inl rfl⟩
  · have hpos : sizeT fPos < 2 ^ 32 := by
      by_contra hge
      rw [CircularBuffer.walk_eq_none _ _ _ (Nat.le_of_not_lt hge)] at hfound
      cases hfound
    rw [hread] at hr
    simp only [copyEntry, hslot, Option.bind_some] at hr
    generalize hn : (if sizeT ((cmds[i].length : ℤ) - off) < count then
      sizeT ((cmds[i].length : ℤ) - off) else count) = n at hr
    obtain ⟨data, hdata, hr⟩ := Option.map_eq_some_iff.mp hr
    obtain ⟨block, hblock, hle, _⟩ := (Heap.read_eq_some_iff _ _ _ _ _).mp hdata
    cases Option.some.inj (hp.symm.trans hblock)
    have hcount : n ≤ count := by
      rw [← hn]
      split <;> omega
    have htotal : cmds[i].length ≤ cmds.flatten.length :=
      (List.sublist_flatten_of_mem (List.getElem_mem hi)).length_le
    by_cases hcopy : uncopied = 0
    · rw [if_neg (by simpa using hcopy)] at hr
      cases hr
      exact Or.inr ⟨n, hcount, by omega, hpos, rfl, rfl⟩
    · rw [if_pos hcopy] at hr
      cases hr
      exact Or.inl ⟨rfl, Or.inr ⟨hcopy, rfl⟩⟩

/-- On commands of 64-bit sizes every read has a result. -/
theorem Shows.read_defined (h : Shows k cmds) (fPos : ℤ) (count uncopied : ℕ)
    (hlen : ∀ cmd ∈ cmds, cmd.length < 2 ^ 64) : ∃ r, aesdRead k fPos count uncopied = some r := by
  rcases h.read_cases fPos count uncopied with
    ⟨_, hread⟩ | ⟨i, off, hi, _, hlt, hslot, hread⟩
  · exact ⟨_, hread⟩
  · rw [hread, copyEntry_stored k fPos count uncopied _ off _ hslot hlt.le
      (hlen _ (List.getElem_mem hi))]
    exact ⟨_, rfl⟩

end Reads

/-- A write keeps the position and returns an error, or sets it to its count. -/
theorem write_effect {k : Kernel} {call : WriteCall} {r : WriteResult}
    (hr : aesdWrite k call = some r) :
    (r.fPos = call.fPos ∧ r.retval < 0 ∧ ¬ call.Succeeds) ∨
      ∃ buf, call.buf = some buf ∧ 0 < buf.count ∧ r.fPos = buf.count ∧ r.retval = buf.count := by
  cases aesdWrite_effect k call r hr with
  | refused errno hrefusal =>
    refine Or.inl ⟨rfl, refusal_neg call errno hrefusal, ?_⟩
    intro hgood
    cases hrefusal.symm.trans hgood.1
  | faulted data head tmp heap hrefusal hfault happ =>
    exact Or.inl ⟨rfl, by simp [EFAULT], fun hgood => hfault hgood.2⟩
  | appended bytes head tmp heap k' hpayload hne hcopy happ hcommit =>
    obtain ⟨buf, hbuf, _, hdata⟩ := exists_payload (refusal_of_payload hpayload)
    cases Option.some.inj (hpayload.symm.trans hdata)
    exact Or.inr ⟨buf, hbuf, List.length_pos_iff.mpr hne, rfl, rfl⟩

/-- The sum of a base and a 64-bit offset leaves the positive range on either side by
less than 2^63, so it is negative after the conversion and is refused. -/
theorem llseek_exact (dev : Dev) (fPos off base : ℤ) (whence : Whence)
    (hbase : seekBase dev fPos whence = some base) (hnonneg : 0 ≤ base) (hlt : base < 2 ^ 63)
    (hoff : -2 ^ 63 ≤ off ∧ off < 2 ^ 63) :
    aesdLlseek dev fPos off whence =
      if 0 ≤ base + off ∧ base + off < 2 ^ 63 then ⟨base + off, base + off⟩
      else ⟨fPos, -EINVAL⟩ := by
  have hnewpos : aesdLlseek dev fPos off whence =
      if loffT (base + off) < 0 then ⟨fPos, -EINVAL⟩
      else ⟨loffT (base + off), loffT (base + off)⟩ := by
    cases whence with
    | seekSet =>
      cases hbase
      rw [zero_add, loffT_of_range off hoff.1 hoff.2]
      rfl
    | seekCur =>
      cases hbase
      rfl
    | seekEnd =>
      cases hbase
      rfl
    | other => cases hbase
  rw [hnewpos]
  by_cases hin : 0 ≤ base + off ∧ base + off < 2 ^ 63
  · rw [if_pos hin, loffT_of_range _ (by omega) hin.2, if_neg (by omega)]
  · have hneg : loffT (base + off) < 0 := by
      unfold loffT
      omega
    rw [if_neg hin, if_pos hneg]

/-- A seek to a command keeps the position and returns an error, or sets it to a place in
the content or at its end. -/
theorem Holds.ioctl_effect {k : Kernel} {es : List BufferEntry} {cmds : List (List UInt8)}
    (h : Holds k es cmds) (hlt : (cmds.rtake 10).flatten.length < 2 ^ 62) (fPos : ℤ) (cmd : ℕ)
    (arg : Option Seekto) (interrupted : Bool) :
    (∃ errno, errno < 0 ∧ aesdIoctl k.dev fPos cmd arg interrupted = ⟨fPos, errno⟩) ∨
      ∃ pos : ℕ, pos ≤ (cmds.rtake 10).flatten.length ∧
        aesdIoctl k.dev fPos cmd arg interrupted = ⟨pos, 0⟩ := by
  unfold aesdIoctl
  split
  · exact Or.inl ⟨_, by decide, rfl⟩
  · split
    · exact Or.inl ⟨_, by decide, rfl⟩
    · split
      · cases arg with
        | none => exact Or.inl ⟨_, by decide, rfl⟩
        | some seekto =>
          simp only
          cases interrupted with
          | true => exact Or.inl ⟨_, by decide, rfl⟩
          | false =>
            by_cases hc : seekto.writeCmd < 10
            · have hle := h.slotSum_le (seekto.writeCmd + 1) (by omega)
              rw [slotSum_succ] at hle
              rw [adjust_eq k.dev fPos seekto hc (by omega)]
              split
              · exact Or.inr ⟨_, by omega, rfl⟩
              · exact Or.inl ⟨_, by decide, rfl⟩
            · rw [(adjust_refused_iff k.dev fPos seekto).mpr (Or.inl (by omega))]
              exact Or.inl ⟨_, by decide, rfl⟩
      · exact Or.inl ⟨_, by decide, rfl⟩

end Aesd.Driver
