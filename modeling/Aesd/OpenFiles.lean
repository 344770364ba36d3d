import Aesd.FileCalls
import Aesd.SessionModel
import Aesd.Traces

/-!
The driver as its callers see it: any number of open files, and the calls on them in any
order. Blocks, slots and offsets do not show in what the calls return. Everything that
comes back is determined by the list of complete commands, the bytes of the open one and
the positions of the files; a fault that loses the pending block shows only in that later
writes have no result.
-/
namespace Aesd.Driver

open Traces

/-- A device with its open files; a position for each of them. -/
structure Files (δ : Type*) where
  device : δ
  fPos : ℕ → Option ℤ

/-- `aesd_open`, `aesd_release`, and the calls on an open file. -/
inductive Request
  | openFile (i : ℕ)
  | release (i : ℕ)
  | call (i : ℕ) (call : FileCall)

/-- What a request returns, and the bytes it copies to the caller. -/
structure Reply where
  retval : ℤ
  data : List UInt8
  deriving DecidableEq

/-- The files over a device. A new file starts at position 0; a call moves the position
of its own file only. -/
def Files.step {δ : Type*} (exec : δ → ℤ → FileCall → Option (δ × ℤ × Reply)) (s : Files δ) :
    Request → Option (Files δ × Reply)
  | .openFile i =>
      match s.fPos i with
      | none => some (⟨s.device, Function.update s.fPos i (some 0)⟩, ⟨0, []⟩)
      | some _ => none
  | .release i =>
      match s.fPos i with
      | none => none
      | some _ => some (⟨s.device, Function.update s.fPos i none⟩, ⟨0, []⟩)
  | .call i call => (s.fPos i).bind (fun pos => (exec s.device pos call).map (fun out =>
      (⟨out.1, Function.update s.fPos i (some out.2.1)⟩, out.2.2)))

theorem Files.step_call {δ : Type*} {exec : δ → ℤ → FileCall → Option (δ × ℤ × Reply)}
    {s : Files δ} {i : ℕ} {pos : ℤ} {call : FileCall} {out : δ × ℤ × Reply}
    (hpos : s.fPos i = some pos) (hexec : exec s.device pos call = some out) :
    s.step exec (.call i call) =
      some (⟨out.1, Function.update s.fPos i (some out.2.1)⟩, out.2.2) := by
  simp only [Files.step, hpos, Option.bind_some, hexec, Option.map_some]

/-- The bytes that a call copies to the caller. -/
def File.delivers (f : File) : FileCall → List UInt8
  | .read count uncopied => ((aesdRead f.kernel f.fPos count uncopied).map ReadResult.data).getD []
  | _ => []

/-- The calls of the driver. -/
def Kernel.exec (k : Kernel) (pos : ℤ) (call : FileCall) : Option (Kernel × ℤ × Reply) :=
  ((⟨k, pos⟩ : File).exec call).map (fun out =>
    (out.1.kernel, out.1.fPos, ⟨out.2, (⟨k, pos⟩ : File).delivers call⟩))

def Files.init : Files Kernel := ⟨aesdInitModule, fun _ => none⟩

/-- What a device remembers of the writes so far. The pending bytes are `none` after a
fault has freed them. -/
structure Memory where
  closed : List (List UInt8)
  pending : Option (List UInt8)
  deriving DecidableEq

namespace Memory

def init : Memory := ⟨[], some []⟩

/-- The ring and the counter that the commands lead to, without their bytes. -/
def dev (m : Memory) : Dev :=
  ⟨shape m.closed, ⟨none, 0⟩, sizeCounter (m.closed.map List.length) % 2 ^ 64⟩

/-- A read delivers bytes of the one command that is found at the position. -/
def read (m : Memory) (pos : ℤ) (count uncopied : ℕ) : ReadResult :=
  match CircularBuffer.walk (sizeT pos) 0 ((m.closed.rtake 10).map List.length) with
  | none => ⟨pos, 0, []⟩
  | some (i, off) =>
      let cmd := (m.closed.rtake 10).getD i []
      let n := min count (cmd.length - off)
      if uncopied ≠ 0 then ⟨pos, -EFAULT, ((cmd.drop off).take n).take (n - uncopied)⟩
      else ⟨loffT (pos + n), loffT n, (cmd.drop off).take n⟩

/-- A write is refused, or it loses the pending bytes by a fault, or it appends. Once
they are lost, a write that comes to enlarge their block has no result. -/
def write (m : Memory) (pos : ℤ) (call : WriteCall) : Option (Memory × ℤ × ℤ) :=
  match m.pending with
  | none =>
      call.refusal.bind (fun errno => if errno = -ENOMEM then none else some (m, pos, errno))
  | some pending =>
      match call.refusal with
      | some errno => some (m, pos, errno)
      | none =>
          let data := call.payload.getD []
          if 2 ^ 64 ≤ pending.length + data.length then none
          else if call.uncopied ≠ 0 then
            some (if pending = [] then m else ⟨m.closed, none⟩, pos, -EFAULT)
          else
            let log := CommandLog.append ⟨m.closed, pending⟩ data
            some (⟨log.closed, some log.pending⟩, data.length, data.length)

def exec (m : Memory) (pos : ℤ) : FileCall → Option (Memory × ℤ × Reply)
  | .read count uncopied =>
      let r := m.read pos count uncopied
      some (m, r.fPos, ⟨r.retval, r.data⟩)
  | .write call => (m.write pos call).map (fun out => (out.1, out.2.1, ⟨out.2.2, []⟩))
  | .llseek off whence =>
      let r := aesdLlseek m.dev pos off whence
      some (m, r.fPos, ⟨r.retval, []⟩)
  | .ioctl cmd arg interrupted =>
      let r := aesdIoctl m.dev pos cmd arg interrupted
      some (m, r.fPos, ⟨r.retval, []⟩)

end Memory

/-- The device keeps what the memory says. -/
structure Keeps (k : Kernel) (m : Memory) : Prop where
  holds : ∃ es, Holds k es m.closed
  sizes : ∀ cmd ∈ m.closed, cmd.length < 2 ^ 64
  pending : ∀ bytes, m.pending = some bytes → CacheHolds k.heap k.dev.entryCache bytes
  lost : m.pending = none → Dangling k

theorem keeps_init : Keeps aesdInitModule .init where
  holds := ⟨[], holds_init⟩
  sizes cmd hcmd := by cases hcmd
  pending bytes hbytes := by
    cases hbytes
    exact Or.inl ⟨rfl, rfl⟩
  lost hlost := by cases hlost

/-- The two seeks look at the counter and at the sizes in the slots. -/
theorem aesdLlseek_congr {dev dev' : Dev} (h : dev.bufferSize = dev'.bufferSize) (pos off : ℤ)
    (whence : Whence) : aesdLlseek dev pos off whence = aesdLlseek dev' pos off whence := by
  unfold aesdLlseek
  rw [h]

theorem aesdIoctl_congr {dev dev' : Dev}
    (h : ∀ i < 10, (dev.circularBuffer.slot i).size = (dev'.circularBuffer.slot i).size)
    (pos : ℤ) (cmd : ℕ) (arg : Option Seekto) (interrupted : Bool) :
    aesdIoctl dev pos cmd arg interrupted = aesdIoctl dev' pos cmd arg interrupted := by
  unfold aesdIoctl
  cases arg with
  | none => rfl
  | some seekto =>
    cases interrupted with
    | true => rfl
    | false => simp only [adjust_congr dev dev' pos seekto h]

namespace Keeps

variable {k : Kernel} {m : Memory}

theorem read (h : Keeps k m) (pos : ℤ) (count uncopied : ℕ) :
    aesdRead k pos count uncopied = some (m.read pos count uncopied) := by
  obtain ⟨es, hholds⟩ := h.holds
  rcases hholds.shows.read_cases pos count uncopied with
    ⟨hnone, hread⟩ | ⟨i, off, hi, hfound, hlt, hslot, hread⟩
  · rw [hread, Memory.read, hnone]
  · have hlen : ((m.closed.rtake 10)[i]).length < 2 ^ 64 :=
      h.sizes _ (List.mem_of_mem_drop (List.getElem_mem hi))
    rw [hread, copyEntry_stored k pos count uncopied _ off _ hslot hlt.le hlen, Memory.read,
      hfound]
    simp only [List.getD_eq_getElem _ _ hi]

theorem dev_counter (h : Keeps k m) : k.dev.bufferSize = m.dev.bufferSize := by
  obtain ⟨es, hholds⟩ := h.holds
  exact hholds.counter

theorem dev_sizes (h : Keeps k m) (i : ℕ) (hi : i < 10) :
    (k.dev.circularBuffer.slot i).size = (m.dev.circularBuffer.slot i).size := by
  obtain ⟨es, hholds⟩ := h.holds
  exact hholds.slot_size i hi

end Keeps

/-- How much of the payload is copied does not decide whether there is room for it. -/
theorem copied_isSome_iff {k : Kernel} {call : WriteCall} {buf : UserBuf} {bytes : List UInt8}
    (hcache : CacheHolds k.heap k.dev.entryCache bytes) (hpick : call.pick ≠ none) :
    (copied k call buf).isSome = true ↔ bytes.length + buf.bytes.length < 2 ^ 64 := by
  have hsize : k.dev.entryCache.size = bytes.length := by
    rcases hcache with ⟨rfl, heq⟩ | ⟨_, p, heq, _⟩
    · rw [heq]
      rfl
    · rw [heq]
  have hlen : (buf.bytes.take (buf.bytes.length - call.uncopied) ++
      List.replicate (min call.uncopied buf.bytes.length) (0 : UInt8)).length =
        buf.bytes.length := by
    rw [List.length_append, List.length_take, List.length_replicate]
    omega
  constructor
  · intro hsome
    obtain ⟨c, hc⟩ := Option.isSome_iff_exists.mp hsome
    obtain ⟨head, happ⟩ := copied_appended k call buf c hc
    have hfits := happ.fits
    rw [hlen, hsize] at hfits
    exact hfits
  · intro hfit
    obtain ⟨c, hc, _⟩ :=
      copied_defined k { call with uncopied := 0 } buf bytes hcache hpick rfl hfit
    obtain ⟨grown, hgrow, hc⟩ := Option.bind_eq_some_iff.mp hc
    obtain ⟨tmp, htmp, hc⟩ := Option.bind_eq_some_iff.mp hc
    obtain ⟨heap, hwrite, _⟩ := Option.map_eq_some_iff.mp hc
    have hgrow' : growCache k.heap k.dev.entryCache buf.count call = some grown := hgrow
    rw [copied, hgrow', Option.bind_some, htmp, Option.bind_some, Option.isSome_map]
    apply Heap.write_isSome_of_length_eq hwrite
    rw [hlen]
    simp

/-- With a dangling cache only the calls that are refused before the allocation return. -/
theorem aesdWrite_dangling {k : Kernel} (h : Dangling k) (call : WriteCall) :
    aesdWrite k call = call.refusal.bind (fun errno =>
      if errno = -ENOMEM then none else some ⟨k, call.fPos, errno⟩) := by
  have hgrow : ∀ count, growCache k.heap k.dev.entryCache count call = none := by
    intro count
    obtain ⟨p, hp, hfreed⟩ := h
    simp [growCache, hp, Heap.krealloc, hfreed]
  unfold aesdWrite WriteCall.refusal
  cases call.filpNull with
  | true => rfl
  | false =>
    cases call.buf with
    | none => rfl
    | some buf =>
      cases call.interrupted with
      | true => rfl
      | false =>
        by_cases hcount : buf.count = 0
        · simp [hcount, EINVAL, ENOMEM]
        · by_cases hpick : call.pick = none
          · simp [hcount, hpick, hgrow]
          · simp [hcount, hpick, hgrow]

/-- The kernel after a write, with the position and the return value. -/
def WriteResult.out (r : WriteResult) : Kernel × ℤ × ℤ := (r.kernel, r.fPos, r.retval)

namespace Keeps

variable {k : Kernel} {m : Memory} {pending : List UInt8}

theorem refines (h : Keeps k m) (hpending : m.pending = some pending) :
    Refines k ⟨m.closed, pending⟩ :=
  ⟨h.holds, h.pending pending hpending⟩

/-- A fault frees the block it has copied to: nothing if it has just been obtained, the
pending bytes otherwise. -/
theorem write_faulted (h : Keeps k m) (hpending : m.pending = some pending)
    {call : WriteCall} (hcall : call.Faults)
    (hfits : pending.length + (call.payload.getD []).length < 2 ^ 64) :
    ∃ k', aesdWrite k call = some ⟨k', call.fPos, -EFAULT⟩ ∧
      Keeps k' (if pending = [] then m else ⟨m.closed, none⟩) := by
  obtain ⟨hrefusal, hfault⟩ := hcall
  obtain ⟨buf, hbuf, hne, hpayload⟩ := exists_payload hrefusal
  have hpick := ((refusal_eq_none_iff call).mp hrefusal).2.2.1
  have hcache := h.pending pending hpending
  obtain ⟨es, hholds⟩ := h.holds
  rw [hpayload, Option.getD_some] at hfits
  obtain ⟨c, hc⟩ := Option.isSome_iff_exists.mp ((copied_isSome_iff hcache hpick).mpr hfits)
  obtain ⟨head, happ⟩ := copied_appended k call buf c hc
  have hfree : c.2.kfree (some c.1) = some (c.2.erase c.1) := by
    rw [Heap.kfree, if_pos (by rw [happ.at_tmp]; rfl)]
  have hwrite : aesdWrite k call = some ⟨{ k with heap := c.2.erase c.1 }, call.fPos, -EFAULT⟩ := by
    rw [aesdWrite_eq_copied k call buf hrefusal hbuf, hc, Option.bind_some, if_pos hfault, hfree,
      Option.map_some]
  have hholds' := hholds.faulted _ head c.1 c.2 happ
  refine ⟨_, hwrite, ?_⟩
  by_cases hnil : pending = []
  · rw [if_pos hnil]
    have hnull := ((cacheHolds_bytes k pending hcache).2.mpr hnil).1
    refine ⟨⟨es, hholds'⟩, h.sizes, ?_, ?_⟩
    · intro bytes hbytes
      cases Option.some.inj (hpending.symm.trans hbytes)
      exact cacheHolds_of_null hcache hnull
    · intro hlost
      cases hpending.symm.trans hlost
  · rw [if_neg hnil]
    have hptr : k.dev.entryCache.buffptr ≠ none := by
      rcases hcache with ⟨hempty, _⟩ | ⟨_, p, heq, _⟩
      · exact absurd hempty hnil
      · rw [heq]
        exact Option.some_ne_none p
    refine ⟨⟨es, hholds'⟩, h.sizes, ?_, fun _ => dangling_of_fault ⟨hrefusal, hfault⟩ hptr hwrite⟩
    intro bytes hbytes
    cases hbytes

/-- A write that copies its payload appends it. -/
theorem write_appended (h : Keeps k m) (hpending : m.pending = some pending)
    {call : WriteCall} (hcall : call.Succeeds)
    (hfits : pending.length + (call.payload.getD []).length < 2 ^ 64) :
    ∃ k', aesdWrite k call =
        some ⟨k', (call.payload.getD []).length, (call.payload.getD []).length⟩ ∧
      Keeps k' ⟨(CommandLog.append ⟨m.closed, pending⟩ (call.payload.getD [])).closed,
        some (CommandLog.append ⟨m.closed, pending⟩ (call.payload.getD [])).pending⟩ := by
  obtain ⟨hrefusal, hcopy⟩ := hcall
  obtain ⟨buf, hbuf, hne, hpayload⟩ := exists_payload hrefusal
  rw [hpayload, Option.getD_some] at hfits ⊢
  have hrefines := h.refines hpending
  obtain ⟨r, hr⟩ := hrefines.defined call hcopy (by
    intro data hdata
    cases Option.some.inj (hpayload.symm.trans hdata)
    exact hfits)
  obtain ⟨hret, _, hnext⟩ := (hrefines.effect call hcopy r hr).1 _ hpayload
  have hpos := aesdWrite_fPos hcopy hpayload hr
  refine ⟨r.kernel, ?_, hnext.1, ?_, ?_, fun hlost => by cases hlost⟩
  · obtain ⟨kernel, fPos, retval⟩ := r
    cases hpos
    cases hret
    exact hr
  · intro cmd hcmd
    unfold CommandLog.append at hcmd
    split at hcmd
    · rcases List.mem_append.mp hcmd with hold | hnew
      · exact h.sizes cmd hold
      · rw [List.mem_singleton.mp hnew, List.length_append]
        exact hfits
    · exact h.sizes cmd hcmd
  · intro bytes hbytes
    cases Option.some.inj hbytes
    exact hnext.2

theorem write (h : Keeps k m) (call : WriteCall) :
    Agree Keeps ((aesdWrite k call).map WriteResult.out) (m.write call.fPos call) := by
  unfold Memory.write
  cases hpending : m.pending with
  | none =>
    rw [aesdWrite_dangling (h.lost hpending)]
    cases call.refusal with
    | none => trivial
    | some errno =>
      simp only [Option.bind_some]
      split
      · trivial
      · exact ⟨rfl, h⟩
  | some pending =>
    have hcache := h.pending pending hpending
    cases hrefusal : call.refusal with
    | some errno =>
      rcases aesdWrite_refusal_cases k call errno hrefusal with hsome | ⟨_, count, hnone⟩
      · rw [hsome]
        exact ⟨rfl, h⟩
      · obtain ⟨out, hgrow⟩ := growCache_defined k.heap k.dev.entryCache count call pending hcache
        cases hnone.symm.trans hgrow
    | none =>
      simp only
      split
      · rename_i hlarge
        obtain ⟨buf, hbuf, _, hpayload⟩ := exists_payload hrefusal
        have hpick := ((refusal_eq_none_iff call).mp hrefusal).2.2.1
        have hnone : copied k call buf = none := by
          rw [← Option.not_isSome_iff_eq_none, copied_isSome_iff hcache hpick]
          rw [hpayload, Option.getD_some] at hlarge
          omega
        rw [aesdWrite_eq_copied k call buf hrefusal hbuf, hnone]
        trivial
      · rename_i hfits
        split
        · rename_i hfault
          obtain ⟨k', hwrite, hkeeps⟩ :=
            h.write_faulted hpending ⟨hrefusal, hfault⟩ (Nat.lt_of_not_le hfits)
          rw [hwrite]
          exact ⟨rfl, hkeeps⟩
        · rename_i hcopy
          obtain ⟨k', hwrite, hkeeps⟩ := h.write_appended hpending
            ⟨hrefusal, not_not.mp hcopy⟩ (Nat.lt_of_not_le hfits)
          rw [hwrite]
          exact ⟨rfl, hkeeps⟩

/-- Every call returns the same on the device and on its memory. -/
theorem exec (h : Keeps k m) (pos : ℤ) (call : FileCall) :
    Agree Keeps (k.exec pos call) (m.exec pos call) := by
  cases call with
  | read count uncopied =>
    simp only [Kernel.exec, File.exec, File.delivers, h.read pos count uncopied, Option.map_some,
      Option.getD_some]
    exact ⟨rfl, h⟩
  | write call =>
    have hwrite := (h.write { call with fPos := pos }).map
      (fun out => (out.1, out.2.1, (⟨out.2.2, []⟩ : Reply)))
      (fun out => (out.1, out.2.1, (⟨out.2.2, []⟩ : Reply)))
      (fun _ _ _ hkeeps => ⟨rfl, hkeeps⟩)
    rw [Option.map_map] at hwrite
    simp only [Kernel.exec, File.exec, Option.map_map]
    exact hwrite
  | llseek off whence =>
    simp only [Kernel.exec, File.exec, Option.map_some, Memory.exec,
      aesdLlseek_congr h.dev_counter pos off whence]
    exact ⟨rfl, h⟩
  | ioctl cmd arg interrupted =>
    simp only [Kernel.exec, File.exec, Option.map_some, Memory.exec,
      aesdIoctl_congr h.dev_sizes pos cmd arg interrupted]
    exact ⟨rfl, h⟩

end Keeps

/-- The same files, over a device and over its memory. -/
structure SameFiles (s : Files Kernel) (t : Files Memory) : Prop where
  keeps : Keeps s.device t.device
  fPos : s.fPos = t.fPos

theorem SameFiles.step {s : Files Kernel} {t : Files Memory} (h : SameFiles s t) (r : Request) :
    Agree SameFiles (s.step Kernel.exec r) (t.step Memory.exec r) := by
  obtain ⟨device, fPos⟩ := s
  obtain ⟨memory, fPos'⟩ := t
  obtain ⟨hkeeps, hpos⟩ := h
  cases hpos
  cases r with
  | openFile i =>
    simp only [Files.step]
    cases fPos i with
    | none => exact ⟨rfl, hkeeps, rfl⟩
    | some pos => trivial
  | release i =>
    simp only [Files.step]
    cases fPos i with
    | none => trivial
    | some pos => exact ⟨rfl, hkeeps, rfl⟩
  | call i call =>
    simp only [Files.step]
    cases fPos i with
    | none => trivial
    | some pos =>
      exact (hkeeps.exec pos call).map _ _ (fun _ _ _ hnext => ⟨rfl, hnext, rfl⟩)

theorem SameFiles.outputs_eq {s : Files Kernel} {t : Files Memory} (h : SameFiles s t)
    (requests : List Request) :
    outputs (Files.step Kernel.exec) s requests = outputs (Files.step Memory.exec) t requests :=
  outputs_eq_of_agree SameFiles (fun _ _ r hsame => hsame.step r) h requests

theorem sameFiles_init : SameFiles Files.init ⟨.init, fun _ => none⟩ :=
  ⟨keeps_init, rfl⟩

/-- For every list of requests, on any number of files: what the driver returns, call by
call, is what the memory of its writes says. -/
theorem replies_eq_memory (requests : List Request) :
    outputs (Files.step Kernel.exec) Files.init requests =
      outputs (Files.step Memory.exec) ⟨.init, fun _ => none⟩ requests :=
  sameFiles_init.outputs_eq requests

end Aesd.Driver
