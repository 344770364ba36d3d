import Aesd.Heap
import Aesd.EntryLookup
import Aesd.Runs

/-!
The file operations of main.c. The device keeps its bytes in heap blocks: one
for the command being collected and one for each live entry of the circular
buffer. What the kernel decides during a call (whether the lock is granted,
where a block is placed, how much of a user buffer can be copied) is an input
of the call. An operation that touches memory it does not own has no result.
-/
namespace Aesd.Driver

def EFAULT : ℤ := 14
def ENOMEM : ℤ := 12
def EINVAL : ℤ := 22
def ENOTTY : ℤ := 25
def ERESTARTSYS : ℤ := 512

def newline : UInt8 := 10

/-- `struct aesd_dev` without the character device and the lock. -/
structure Dev where
  circularBuffer : CircularBuffer
  entryCache : BufferEntry
  bufferSize : ℕ
  deriving DecidableEq

structure Kernel where
  dev : Dev
  heap : Heap UInt8

/-- A user buffer as the file layer hands it on: `count` is its length, and a
count that is negative as `ssize_t` is turned away before the driver runs. -/
structure UserBuf where
  bytes : List UInt8
  count_lt : bytes.length < 2 ^ 63
  deriving DecidableEq

def UserBuf.count (buf : UserBuf) : ℕ := buf.bytes.length

/-- `aesd_init_module`, after the device number has been obtained. -/
def aesdInitModule : Kernel where
  dev := ⟨CircularBuffer.init, ⟨none, 0⟩, 0⟩
  heap := Store.empty

/-- The arguments of one `aesd_write` and what the kernel answers during it:
`interrupted` for the lock, `pick` and `stale` for the allocation, and the
number of bytes `copy_from_user` leaves uncopied. -/
structure WriteCall where
  filpNull : Bool
  buf : Option UserBuf
  fPos : ℤ
  interrupted : Bool
  pick : Option ℕ
  stale : ℕ → UInt8
  uncopied : ℕ

/-- A call in which the kernel grants everything and places the block at `pick`. -/
def WriteCall.granted (buf : UserBuf) (pick : ℕ) : WriteCall where
  filpNull := false
  buf := some buf
  fPos := 0
  interrupted := false
  pick := some pick
  stale := fun _ => 0
  uncopied := 0

structure WriteResult where
  kernel : Kernel
  fPos : ℤ
  retval : ℤ

/-- The block for the bytes collected so far and the new ones. -/
def growCache (heap : Heap UInt8) (cache : BufferEntry) (count : ℕ) (call : WriteCall) :
    Option (Heap UInt8 × Option ℕ) :=
  match cache.buffptr with
  | none => some (heap.kmalloc count call.pick call.stale)
  | some p => heap.krealloc p (sizeT (cache.size + count)) call.pick call.stale

/-- `copy_from_user` fills what it could not copy with zeros. -/
def copyFromUser (heap : Heap UInt8) (dst off : ℕ) (bytes : List UInt8) (uncopied : ℕ) :
    Option (Heap UInt8) :=
  heap.write dst off
    (bytes.take (bytes.length - uncopied) ++ List.replicate (min uncopied bytes.length) 0)

/-- `buffptr[size - 1]` -/
def lastByte (heap : Heap UInt8) (entry : BufferEntry) : Option UInt8 :=
  entry.buffptr.bind (fun p => (heap.data p).bind (fun block => block[sizeT (entry.size - 1)]?))

/-- Hand the collected command to the circular buffer, free the evicted block
and account for the sizes. -/
def handOver (k : Kernel) : Option Kernel :=
  let added := k.dev.circularBuffer.addEntry k.dev.entryCache
  (k.heap.kfree added.2).map (fun heap =>
    let bufferSize := match added.2 with
      | none => k.dev.bufferSize
      | some _ => sizeT (k.dev.bufferSize - (added.1.slot added.1.inOffs).size)
    { dev := ⟨added.1, ⟨none, 0⟩, sizeT (bufferSize + k.dev.entryCache.size)⟩
      heap := heap })

def commitEntry (k : Kernel) : Option Kernel :=
  (lastByte k.heap k.dev.entryCache).bind (fun last =>
    if last = newline then handOver k else some k)

def aesdWrite (k : Kernel) (call : WriteCall) : Option WriteResult :=
  if call.filpNull then some ⟨k, call.fPos, -EINVAL⟩
  else match call.buf with
  | none => some ⟨k, call.fPos, -EINVAL⟩
  | some buf =>
      if call.interrupted then some ⟨k, call.fPos, -ERESTARTSYS⟩
      else if buf.count ≤ 0 then some ⟨k, call.fPos, -EINVAL⟩
      else
        (growCache k.heap k.dev.entryCache buf.count call).bind (fun grown =>
          match grown.2 with
          | none => some ⟨{ k with heap := grown.1 }, call.fPos, -ENOMEM⟩
          | some bufferTmp =>
              (copyFromUser grown.1 bufferTmp k.dev.entryCache.size buf.bytes
                  call.uncopied).bind (fun heap =>
                if call.uncopied ≠ 0 then
                  (heap.kfree (some bufferTmp)).map (fun freed =>
                    ⟨{ k with heap := freed }, call.fPos, -EFAULT⟩)
                else
                  let entryCache : BufferEntry :=
                    ⟨some bufferTmp, sizeT (k.dev.entryCache.size + buf.count)⟩
                  (commitEntry ⟨{ k.dev with entryCache := entryCache }, heap⟩).map
                    (fun k' => ⟨k', buf.count, buf.count⟩)))

structure ReadResult where
  fPos : ℤ
  retval : ℤ
  data : List UInt8
  deriving DecidableEq

/-- The part of `aesd_read` after the lookup: the size and the pointer of the
entry are read only now. -/
def copyEntry (k : Kernel) (fPos : ℤ) (count uncopied idx entryOffset : ℕ) :
    Option ReadResult :=
  let entry := k.dev.circularBuffer.slot idx
  let availableBytes := sizeT (entry.size - entryOffset)
  let count := if availableBytes < count then availableBytes else count
  entry.buffptr.bind (fun p =>
    (k.heap.read p entryOffset count).map (fun data =>
      if uncopied ≠ 0 then ⟨fPos, -EFAULT, data.take (count - uncopied)⟩
      else ⟨loffT (fPos + count), loffT count, data⟩))

def aesdRead (k : Kernel) (fPos : ℤ) (count uncopied : ℕ) : Option ReadResult :=
  (k.dev.circularBuffer.findEntryOffsetForFpos (sizeT fPos)).bind (fun found =>
    match found with
    | none => some ⟨fPos, 0, []⟩
    | some (idx, entryOffset) => copyEntry k fPos count uncopied idx entryOffset)

inductive Whence
  | seekSet
  | seekCur
  | seekEnd
  | other
  deriving DecidableEq

structure SeekResult where
  fPos : ℤ
  retval : ℤ
  deriving DecidableEq

def aesdLlseek (dev : Dev) (fPos off : ℤ) (whence : Whence) : SeekResult :=
  let newpos : Option ℤ := match whence with
    | .seekSet => some off
    | .seekCur => some (loffT (fPos + off))
    | .seekEnd => some (loffT (dev.bufferSize + off))
    | .other => none
  match newpos with
  | none => ⟨fPos, -EINVAL⟩
  | some newpos => if newpos < 0 then ⟨fPos, -EINVAL⟩ else ⟨newpos, newpos⟩

/-- `struct aesd_seekto`: two 32-bit values. -/
structure Seekto where
  writeCmd : ℕ
  writeCmdOffset : ℕ
  writeCmd_lt : writeCmd < 2 ^ 32
  writeCmdOffset_lt : writeCmdOffset < 2 ^ 32
  deriving DecidableEq

/-- The sum over the slots `0 .. n - 1`, made in a `long`. -/
def sumSlots (buffer : CircularBuffer) : ℕ → ℤ
  | 0 => 0
  | i + 1 => loffT (sumSlots buffer i + (buffer.slot i).size)

def aesdAdjustFileOffset (dev : Dev) (fPos : ℤ) (interrupted : Bool) (seekto : Seekto) :
    SeekResult :=
  if interrupted then ⟨fPos, -ERESTARTSYS⟩
  else if maxWriteOperationsSupported ≤ seekto.writeCmd ∨
      (dev.circularBuffer.slot seekto.writeCmd).size < seekto.writeCmdOffset then
    ⟨fPos, -EINVAL⟩
  else ⟨loffT (sumSlots dev.circularBuffer seekto.writeCmd + seekto.writeCmdOffset), 0⟩

/-- `AESD_IOC_MAGIC`, `AESDCHAR_IOC_MAXNR`, and `_IOWR(AESD_IOC_MAGIC, 1, struct aesd_seekto)`. -/
def iocMagic : ℕ := 0x16
def iocMaxnr : ℕ := 1
def iocSeekto : ℕ := 3 * 2 ^ 30 + 8 * 2 ^ 16 + iocMagic * 2 ^ 8 + 1

/-- `_IOC_TYPE` and `_IOC_NR`: bits 8 to 15 and 0 to 7 of the command. -/
def iocType (cmd : ℕ) : ℕ := cmd / 2 ^ 8 % 2 ^ 8
def iocNr (cmd : ℕ) : ℕ := cmd % 2 ^ 8

/-- The argument is what `copy_from_user` delivers, or `none` when it faults. -/
def aesdIoctl (dev : Dev) (fPos : ℤ) (cmd : ℕ) (arg : Option Seekto) (interrupted : Bool) :
    SeekResult :=
  if iocType cmd ≠ iocMagic then ⟨fPos, -ENOTTY⟩
  else if iocNr cmd ≠ iocMaxnr then ⟨fPos, -ENOTTY⟩
  else if cmd = iocSeekto then
    match arg with
    | none => ⟨fPos, -EFAULT⟩
    | some seekto => aesdAdjustFileOffset dev fPos interrupted seekto
  else ⟨fPos, -ENOTTY⟩

/-- `aesd_cleanup_module`: `kfree` for each entry, from slot 0 to slot 9. -/
def aesdCleanupModule (k : Kernel) : Option Kernel :=
  (Runs.run (fun heap index => Heap.kfree heap (k.dev.circularBuffer.slot index).buffptr) k.heap
    (List.range maxWriteOperationsSupported)).map (fun heap => { k with heap := heap })

/-- A run of writes, one after the other. -/
def runWrites (k : Kernel) (calls : List WriteCall) : Option Kernel :=
  Runs.run (fun k call => (aesdWrite k call).map WriteResult.kernel) k calls

/-- The bytes an entry stands for, if its block holds that many. -/
def Kernel.bytesOf (k : Kernel) (entry : BufferEntry) : Option (List UInt8) :=
  match entry.buffptr with
  | none => if entry.size = 0 then some [] else none
  | some p => k.heap.read p 0 entry.size

/-- The live entries hold the commands `cmds`, oldest first. -/
def Kernel.LiveCommands (k : Kernel) (cmds : List (List UInt8)) : Prop :=
  k.dev.circularBuffer.live.map k.bytesOf = cmds.map some

end Aesd.Driver
