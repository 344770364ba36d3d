import Aesd.CString
import Aesd.Driver

/-!
The control flow of `handle_client`: which call the handler makes next, and how
the result of that call moves it on. What the calls do to the rest of the
process and to the device is left to the server; here is only the local state
of one thread. The `close(client_sockfd)` at the end and after a failed
`getpeername` is no call of this machine.
-/
namespace Aesd.Server

open Driver

/-- A nonempty part of a packet, as one `recv` of 1024 bytes can return it. -/
structure Chunk where
  bytes : List UInt8
  pos : 0 < bytes.length
  le : bytes.length ≤ 1024

/-- The 1024 bytes that `buffer` points to. -/
structure Buffer where
  bytes : List UInt8
  length_eq : bytes.length = 1024

namespace Buffer

/-- `memset(buffer, 0, 1024)` -/
def zeros : Buffer := ⟨List.replicate 1024 0, List.length_replicate⟩

/-- The first bytes are overwritten by what was received. -/
def receive (buffer : Buffer) (chunk : Chunk) : Buffer where
  bytes := chunk.bytes ++ buffer.bytes.drop chunk.bytes.length
  length_eq := by
    rw [List.length_append, List.length_drop, buffer.length_eq]
    have := chunk.le
    omega

/-- The first `count` bytes, as they are handed to a system call. -/
def front (buffer : Buffer) (count : ℕ) : UserBuf where
  bytes := buffer.bytes.take count
  count_lt := by
    rw [List.length_take, buffer.length_eq]
    omega

end Buffer

/-- The text of `pattern`. -/
def pattern : List UInt8 :=
  ['A', 'E', 'S', 'D', 'C', 'H', 'A', 'R', '_', 'I', 'O', 'C', 'S', 'E', 'E', 'K', 'T', 'O',
    ':'].map (fun c => UInt8.ofNat c.toNat)

/-- `sscanf(match, "AESDCHAR_IOCSEEKTO:%u,%u", &X, &Y)`, where `match` starts with
the pattern; there is a result only if both numbers are read. -/
def scanSeekto (text : List UInt8) : Option Seekto :=
  (CString.scanUnsigned (text.drop pattern.length)).bind (fun x =>
    match x.2 with
    | [] => none
    | b :: rest =>
        if b = 44 then (CString.scanUnsigned rest).map (fun y =>
          ⟨uint32 x.1, uint32 y.1, uint32_lt _, uint32_lt _⟩)
        else none)

/-- The seek request in the buffer, if there is one. -/
def Buffer.seekto (buffer : Buffer) : Option Seekto :=
  (CString.strstr pattern (CString.ofBuffer buffer.bytes)).bind scanSeekto

/-- Where the handler stands, named by the call it makes next. -/
inductive Pc
  | getpeername
  | mallocBuffer
  | closeSockfd
  | openFile
  | recv
  | closeOnError
  | ioctl (seekto : Seekto)
  | write (recvBytes : ℕ)
  | lseek
  | closeFile
  | lockMutex
  | mallocWriteBuf
  | unlockOnError
  | reopenFile
  | read
  | send (data : List UInt8)
  | closeLast
  | unlockMutex
  | returned
  deriving DecidableEq

def Pc.isWrite : Pc → Bool
  | .write _ => true
  | _ => false

theorem Pc.isWrite_iff (pc : Pc) : pc.isWrite = true ↔ ∃ n, pc = .write n := by
  cases pc <;> simp [isWrite]

/-- The local variables of one `handle_client`. -/
structure Handler where
  pc : Pc
  buffer : Buffer
  connectionClosed : Bool
  receivedError : Bool
  needToReopen : Bool

def Handler.start : Handler := ⟨.getpeername, .zeros, false, false, false⟩

inductive Call
  | getpeername
  | malloc
  | openDevice
  | recv
  | ioctl (seekto : Seekto)
  | write (buf : UserBuf)
  | lseek
  | read
  | close
  | closeSockfd
  | send (data : List UInt8)
  | lock
  | unlock
  deriving DecidableEq

/-- What `recv` can return: data, 0, or an error. -/
inductive Recv
  | data (chunk : Chunk)
  | closed
  | error

def Recv.isData : Recv → Bool
  | .data _ => true
  | _ => false

inductive Result
  | ok
  | failed
  | data (bytes : List UInt8)
  | recv (r : Recv)

/-- The call that a handler makes next, if it has not returned. -/
def Handler.call (h : Handler) : Option Call :=
  match h.pc with
  | .getpeername => some .getpeername
  | .mallocBuffer => some .malloc
  | .closeSockfd => some .closeSockfd
  | .openFile => some .openDevice
  | .recv => some .recv
  | .closeOnError => some .close
  | .ioctl seekto => some (.ioctl seekto)
  | .write recvBytes => some (.write (h.buffer.front recvBytes))
  | .lseek => some .lseek
  | .closeFile => some .close
  | .lockMutex => some .lock
  | .mallocWriteBuf => some .malloc
  | .unlockOnError => some .unlock
  | .reopenFile => some .openDevice
  | .read => some .read
  | .send data => some (.send data)
  | .closeLast => some .close
  | .unlockMutex => some .unlock
  | .returned => none

theorem Handler.call_of_isWrite (h : Handler) (hpc : h.pc.isWrite = true) :
    ∃ buf, h.call = some (.write buf) := by
  obtain ⟨n, hn⟩ := (Pc.isWrite_iff h.pc).mp hpc
  exact ⟨h.buffer.front n, by rw [call, hn]⟩

/-- The branches of the receive loop on data. -/
def Handler.receive (h : Handler) (chunk : Chunk) : Handler :=
  let h := { h with buffer := h.buffer.receive chunk }
  if h.receivedError || h.connectionClosed then
    { h with needToReopen := false, pc := .closeOnError }
  else match h.buffer.seekto with
  | some seekto => { h with needToReopen := false, pc := .ioctl seekto }
  | none => { h with pc := .write chunk.bytes.length }

/-- `memchr` over the whole buffer decides whether the receive loop ends. -/
def Handler.afterWrite (h : Handler) : Handler :=
  if newline ∈ h.buffer.bytes then { h with needToReopen := true, pc := .lseek }
  else { h with buffer := .zeros, pc := .recv }

/-- How the result of the call at `pc` moves the handler on. -/
def Handler.resume (h : Handler) (result : Result) : Handler :=
  match h.pc, result with
  | .getpeername, .ok => { h with pc := .mallocBuffer }
  | .getpeername, _ => { h with pc := .returned }
  | .mallocBuffer, .ok => { h with buffer := .zeros, pc := .openFile }
  | .mallocBuffer, _ => { h with pc := .closeSockfd }
  | .closeSockfd, _ => { h with pc := .returned }
  | .openFile, _ => { h with pc := .recv }
  | .recv, .recv .closed => { h with connectionClosed := true }
  | .recv, .recv (.data chunk) => h.receive chunk
  | .recv, _ => { h with receivedError := true }
  | .closeOnError, _ => { h with pc := .lockMutex }
  | .ioctl _, _ => { h with pc := .lockMutex }
  | .write _, _ => h.afterWrite
  | .lseek, _ => { h with pc := .closeFile }
  | .closeFile, _ => { h with pc := .lockMutex }
  | .lockMutex, _ => { h with pc := .mallocWriteBuf }
  | .mallocWriteBuf, .ok =>
      if h.needToReopen then { h with pc := .reopenFile } else { h with pc := .read }
  | .mallocWriteBuf, _ => { h with pc := .unlockOnError }
  | .unlockOnError, _ => { h with pc := .returned }
  | .reopenFile, _ => { h with pc := .read }
  | .read, .data bytes => { h with pc := .send bytes }
  | .read, _ => { h with pc := .closeLast }
  | .send _, _ => { h with pc := .read }
  | .closeLast, _ => { h with pc := .unlockMutex }
  | .unlockMutex, _ => { h with pc := .returned }
  | .returned, _ => h

end Aesd.Server
