import Aesd.ClientHandler

/-!
The server process: any number of `handle_client` threads over one device, the
globals `file` and `sockfd`, the table of descriptors that both of them point into,
and `file_mutex`. One step is one call of one thread. The environment decides what
every `recv` returns, whether a call fails, and which numbers new descriptors and
blocks get. Of the descriptors the table has the open files of the device and the
socket the server listens on; the connections are not in it, so a run is the
process's own as long as no call on `file` meets the number of a connection.
-/
namespace Aesd.Server

open Driver

/-- An open file of the device: who opened it, as the how-many-th, and its position. -/
structure OpenFile where
  owner : ℕ
  serial : ℕ
  fPos : ℤ

/-- What a descriptor stands for. -/
inductive Fd
  | device (f : OpenFile)
  | listener

def Fd.openFile : Fd → Option OpenFile
  | .device f => some f
  | .listener => none

theorem Fd.openFile_eq_some_iff (d : Fd) (f : OpenFile) : d.openFile = some f ↔ d = .device f := by
  cases d <;> simp [openFile]

/-- The calls that name the device. -/
inductive DeviceOp
  | openDevice
  | ioctl
  | write
  | lseek
  | read
  | close
  deriving DecidableEq

/-- The calls that use an open file. -/
def Call.deviceOp : Call → Option DeviceOp
  | .ioctl _ => some .ioctl
  | .write _ => some .write
  | .lseek => some .lseek
  | .read => some .read
  | _ => none

theorem Call.deviceOp_ne (call : Call) (op : DeviceOp) (h : call.deviceOp = some op) :
    op ≠ .openDevice ∧ op ≠ .close := by
  cases call <;> cases h <;> decide

/-- One call on the device: by which thread, and on which open file, if any. -/
structure Event where
  task : ℕ
  op : DeviceOp
  serial : Option ℕ
  deriving DecidableEq

/-- `inbox i` is what `recv` will return on connection `i`. The last five fields
record what has happened so far: the bytes written and sent by each thread, the
commands that entered the ring, the device calls, and the number of opens. -/
structure State where
  kernel : Kernel
  fds : Store Fd
  sockfd : ℕ
  file : Option ℕ
  fileMutex : Option ℕ
  handlers : ℕ → Handler
  inbox : ℕ → List Recv
  written : ℕ → List UInt8
  sent : ℕ → List UInt8
  entered : List (List UInt8)
  log : List Event
  opens : ℕ

/-- The process when the first connection is there: `sockfd` has got the number of
the file that was opened and closed before it. -/
def initAt (sockfd : ℕ) (inbox : ℕ → List Recv) : State where
  kernel := aesdInitModule
  fds := Store.empty.set sockfd .listener
  sockfd := sockfd
  file := some sockfd
  fileMutex := none
  handlers := fun _ => .start
  inbox := inbox
  written := fun _ => []
  sent := fun _ => []
  entered := []
  log := []
  opens := 0

/-- The three standard descriptors come first. -/
def init (inbox : ℕ → List Recv) : State := initAt 3 inbox

/-- What the environment answers to one call. -/
structure Answer where
  granted : Bool
  fd : Option ℕ
  interrupted : Bool
  pick : Option ℕ
  stale : ℕ → UInt8
  uncopied : ℕ
  unsent : ℕ

/-- Everything succeeds; new descriptors and blocks are asked for at `n`. -/
def Answer.granting (n : ℕ) : Answer := ⟨true, some n, false, some n, fun _ => 0, 0, 0⟩

namespace State

/-- The open file of the device that the number `fd` stands for. -/
def openFile (s : State) (fd : ℕ) : Option OpenFile := (s.fds.data fd).bind Fd.openFile

theorem openFile_eq_some_iff (s : State) (fd : ℕ) (f : OpenFile) :
    s.openFile fd = some f ↔ s.fds.data fd = some (.device f) := by
  simp only [openFile, Option.bind_eq_some_iff, Fd.openFile_eq_some_iff, exists_eq_right]

/-- No file of the device is open. -/
def NoDevice (s : State) : Prop := ∀ fd, s.openFile fd = none

theorem noDevice_iff (s : State) :
    s.NoDevice ↔ ∀ fd ∈ List.range s.fds.limit, s.openFile fd = none := by
  constructor
  · intro h fd _
    exact h fd
  · intro h fd
    by_cases hfd : fd < s.fds.limit
    · exact h fd (List.mem_range.mpr hfd)
    · rw [openFile, s.fds.free_above fd (by omega), Option.bind_none]

instance (s : State) : Decidable s.NoDevice := decidable_of_iff _ s.noDevice_iff.symm

/-- The open file behind the number in `file`. -/
def device (s : State) : Option (ℕ × OpenFile) :=
  s.file.bind (fun fd => (s.openFile fd).map (fun f => (fd, f)))

theorem device_eq_some_iff (s : State) (fd : ℕ) (f : OpenFile) :
    s.device = some (fd, f) ↔ s.file = some fd ∧ s.fds.data fd = some (.device f) := by
  rw [← openFile_eq_some_iff]
  simp only [device, Option.bind_eq_some_iff, Option.map_eq_some_iff, Prod.mk.injEq]
  constructor
  · intro h
    obtain ⟨fd', hfile, f', hdata, rfl, rfl⟩ := h
    exact ⟨hfile, hdata⟩
  · intro h
    exact ⟨fd, h.1, f, h.2, rfl, rfl⟩

theorem device_eq_none {s : State} (h : s.NoDevice) : s.device = none := by
  apply Option.eq_none_iff_forall_ne_some.mpr
  intro d hd
  have hdata := ((s.device_eq_some_iff d.1 d.2).mp hd).2
  rw [← openFile_eq_some_iff, h d.1] at hdata
  cases hdata

theorem device_congr {s t : State} (hfile : t.file = s.file) (hfds : t.fds = s.fds) :
    t.device = s.device := by
  simp only [device, openFile, hfile, hfds]

def record (s : State) (i : ℕ) (op : DeviceOp) : State :=
  { s with log := s.log ++ [⟨i, op, s.device.map (fun d => d.2.serial)⟩] }

def setPos (s : State) (fd : ℕ) (f : OpenFile) (fPos : ℤ) : State :=
  { s with fds := s.fds.set fd (.device { f with fPos := fPos }) }

/-- `close`, whatever the number stands for. -/
def close (s : State) (number : Option ℕ) : State × Result :=
  match number with
  | none => (s, .failed)
  | some fd =>
      match s.fds.data fd with
      | none => (s, .failed)
      | some _ => ({ s with fds := s.fds.erase fd }, .ok)

/-- `close(sockfd)` is a call on the device if its number has become that of a file. -/
def recordSockfd (s : State) (i : ℕ) : State :=
  { s with log := s.log ++
      (s.openFile s.sockfd).toList.map (fun f => ⟨i, .close, some f.serial⟩) }

end State

/-- The command that a write has put into the ring, if it has put one there: the
entry in front of the new write offset. -/
def newCommand (k k' : Kernel) : Option (List UInt8) :=
  if k'.dev.circularBuffer.inOffs = k.dev.circularBuffer.inOffs then none
  else k'.bytesOf (k'.dev.circularBuffer.slot ((k'.dev.circularBuffer.inOffs + 9) % 10))

def Answer.writeCall (answer : Answer) (buf : UserBuf) (fPos : ℤ) : WriteCall where
  filpNull := false
  buf := some buf
  fPos := fPos
  interrupted := answer.interrupted
  pick := answer.pick
  stale := answer.stale
  uncopied := answer.uncopied

/-- A call on the number in `file`: it fails if that number is not open. -/
def State.onDevice (s : State) (i : ℕ) (op : DeviceOp)
    (act : State → ℕ → OpenFile → Option (State × Result)) : Option (State × Result) :=
  match s.device with
  | none => some (s.record i op, .failed)
  | some (fd, f) => act (s.record i op) fd f

/-- One call of thread `i`. A call that blocks has no result. -/
def exec (s : State) (i : ℕ) (answer : Answer) : Call → Option (State × Result)
  | .getpeername => some (s, if answer.granted then .ok else .failed)
  | .malloc => some (s, if answer.granted then .ok else .failed)
  | .openDevice =>
      match answer.fd with
      | none => some ({ s with
          file := none
          log := s.log ++ [⟨i, .openDevice, none⟩] }, .failed)
      | some pick =>
          let fd := s.fds.fresh pick
          some ({ s with
            file := some fd
            fds := s.fds.set fd (.device ⟨i, s.opens, 0⟩)
            opens := s.opens + 1
            log := s.log ++ [⟨i, .openDevice, some s.opens⟩] }, .ok)
  | .recv =>
      match s.inbox i with
      | [] => none
      | r :: rest => some ({ s with inbox := Function.update s.inbox i rest }, .recv r)
  | .ioctl seekto => s.onDevice i .ioctl (fun s fd f =>
      let r := aesdIoctl s.kernel.dev f.fPos iocSeekto (some seekto) answer.interrupted
      some (s.setPos fd f r.fPos, .ok))
  | .write buf => s.onDevice i .write (fun s fd f =>
      (aesdWrite s.kernel (answer.writeCall buf f.fPos)).map (fun r =>
        ({ s.setPos fd f r.fPos with
          kernel := r.kernel
          written := Function.update s.written i (s.written i ++ buf.bytes)
          entered := s.entered ++ (newCommand s.kernel r.kernel).toList }, .ok)))
  | .lseek => s.onDevice i .lseek (fun s fd f =>
      some (s.setPos fd f (aesdLlseek s.kernel.dev f.fPos 0 .seekSet).fPos, .ok))
  | .read => s.onDevice i .read (fun s fd f =>
      (aesdRead s.kernel f.fPos 1024 answer.uncopied).map (fun r =>
        (s.setPos fd f r.fPos, if 0 < r.retval then .data r.data else .ok)))
  | .close => some ((s.record i .close).close s.file)
  | .closeSockfd => some ((s.recordSockfd i).close (some s.sockfd))
  | .send data =>
      let sent := s.sent i ++ data.take (data.length - answer.unsent)
      some ({ s with sent := Function.update s.sent i sent }, .ok)
  | .lock =>
      match s.fileMutex with
      | none => some ({ s with fileMutex := some i }, .ok)
      | some _ => none
  | .unlock => some ({ s with fileMutex := none }, .ok)

/-- A `close` through `file` while it has the number of a file of the device. -/
theorem exec_close {s : State} {fd : ℕ} {f : OpenFile} (i : ℕ) (answer : Answer)
    (hdevice : s.device = some (fd, f)) :
    exec s i answer .close = some ({ s.record i .close with fds := s.fds.erase fd }, .ok) := by
  obtain ⟨hfile, hdata⟩ := (s.device_eq_some_iff fd f).mp hdevice
  simp only [exec, State.close, hfile]
  rw [show (s.record i .close).fds = s.fds from rfl, hdata]

theorem device_closed {s : State} {fd : ℕ} {f : OpenFile} (i : ℕ)
    (hdevice : s.device = some (fd, f)) :
    State.device { s.record i .close with fds := s.fds.erase fd } = none := by
  have hfile := ((s.device_eq_some_iff fd f).mp hdevice).1
  simp [State.device, State.record, State.openFile, hfile, Store.data_erase_self]

/-- What a call of thread `i` leaves alone. -/
structure Frame (s t : State) (i : ℕ) (call : Call) : Prop where
  others : ∀ j, j ≠ i →
    t.inbox j = s.inbox j ∧ t.written j = s.written j ∧ t.sent j = s.sent j
  device : (∀ buf, call ≠ .write buf) →
    t.kernel = s.kernel ∧ t.written = s.written ∧ t.entered = s.entered
  inbox : call ≠ .recv → t.inbox = s.inbox
  sent : (∀ data, call ≠ .send data) → t.sent = s.sent
  mutex : call ≠ .lock → call ≠ .unlock → t.fileMutex = s.fileMutex

/-- A call that changes neither the device nor a connection. -/
theorem Frame.of_eq {s t : State} (i : ℕ) (call : Call) (hkernel : t.kernel = s.kernel)
    (hinbox : t.inbox = s.inbox) (hwritten : t.written = s.written) (hsent : t.sent = s.sent)
    (hentered : t.entered = s.entered) (hmutex : t.fileMutex = s.fileMutex) :
    Frame s t i call where
  others j _ := by rw [hinbox, hwritten, hsent]; exact ⟨rfl, rfl, rfl⟩
  device _ := ⟨hkernel, hwritten, hentered⟩
  inbox _ := hinbox
  sent _ := hsent
  mutex _ _ := hmutex

theorem Frame.of_close {s r : State} (i : ℕ) (call : Call) (number : Option ℕ)
    (h : Frame s r i call) : Frame s (r.close number).1 i call := by
  unfold State.close
  split
  · exact h
  · split
    · exact h
    · exact ⟨h.others, h.device, h.inbox, h.sent, h.mutex⟩

/-- The calls that leave the mutex and the replies alone. -/
def Call.plain : Call → Bool
  | .lock | .unlock | .send _ => false
  | _ => true

theorem Frame.of_plain {s t : State} {i : ℕ} {call : Call} (h : Frame s t i call)
    (hplain : call.plain = true) : t.fileMutex = s.fileMutex ∧ t.sent = s.sent := by
  cases call with
  | lock => cases hplain
  | unlock => cases hplain
  | send data => cases hplain
  | _ => exact ⟨h.mutex (by simp) (by simp), h.sent (by simp)⟩

theorem exec_frame {s t : State} {i : ℕ} {answer : Answer} {call : Call} {result : Result}
    (hexec : exec s i answer call = some (t, result)) : Frame s t i call := by
  cases call with
  | getpeername =>
    cases hexec
    exact .of_eq i _ rfl rfl rfl rfl rfl rfl
  | malloc =>
    cases hexec
    exact .of_eq i _ rfl rfl rfl rfl rfl rfl
  | openDevice =>
    simp only [exec] at hexec
    split at hexec <;> cases hexec <;> exact .of_eq i _ rfl rfl rfl rfl rfl rfl
  | recv =>
    simp only [exec] at hexec
    split at hexec
    · cases hexec
    · cases hexec
      refine ⟨?_, fun _ => ⟨rfl, rfl, rfl⟩, fun h => absurd rfl h, fun _ => rfl,
        fun _ _ => rfl⟩
      intro j hj
      exact ⟨Function.update_of_ne hj _ _, rfl, rfl⟩
  | ioctl seekto =>
    simp only [exec, State.onDevice] at hexec
    split at hexec <;> cases hexec <;> exact .of_eq i _ rfl rfl rfl rfl rfl rfl
  | write buf =>
    simp only [exec, State.onDevice] at hexec
    split at hexec
    · cases hexec
      exact .of_eq i _ rfl rfl rfl rfl rfl rfl
    · obtain ⟨r, _, hout⟩ := Option.map_eq_some_iff.mp hexec
      cases hout
      refine ⟨?_, fun h => absurd rfl (h buf), fun _ => rfl, fun _ => rfl, fun _ _ => rfl⟩
      intro j hj
      exact ⟨rfl, Function.update_of_ne hj _ _, rfl⟩
  | lseek =>
    simp only [exec, State.onDevice] at hexec
    split at hexec <;> cases hexec <;> exact .of_eq i _ rfl rfl rfl rfl rfl rfl
  | read =>
    simp only [exec, State.onDevice] at hexec
    split at hexec
    · cases hexec
      exact .of_eq i _ rfl rfl rfl rfl rfl rfl
    · obtain ⟨r, _, hout⟩ := Option.map_eq_some_iff.mp hexec
      cases hout
      exact .of_eq i _ rfl rfl rfl rfl rfl rfl
  | close =>
    obtain ⟨rfl, _⟩ := Prod.mk.inj (Option.some.inj hexec)
    exact .of_close i _ s.file (.of_eq i _ rfl rfl rfl rfl rfl rfl)
  | closeSockfd =>
    obtain ⟨rfl, _⟩ := Prod.mk.inj (Option.some.inj hexec)
    have hrecord : Frame s (s.recordSockfd i) i .closeSockfd :=
      .of_eq i _ rfl rfl rfl rfl rfl rfl
    exact hrecord.of_close i _ (some s.sockfd)
  | send data =>
    cases hexec
    refine ⟨?_, fun _ => ⟨rfl, rfl, rfl⟩, fun _ => rfl, fun h => absurd rfl (h data),
      fun _ _ => rfl⟩
    intro j hj
    exact ⟨rfl, rfl, Function.update_of_ne hj _ _⟩
  | lock =>
    simp only [exec] at hexec
    split at hexec
    · cases hexec
      exact ⟨fun _ _ => ⟨rfl, rfl, rfl⟩, fun _ => ⟨rfl, rfl, rfl⟩, fun _ => rfl, fun _ => rfl,
        fun h _ => absurd rfl h⟩
    · cases hexec
  | unlock =>
    cases hexec
    exact ⟨fun _ _ => ⟨rfl, rfl, rfl⟩, fun _ => ⟨rfl, rfl, rfl⟩, fun _ => rfl, fun _ => rfl,
      fun _ h => absurd rfl h⟩

structure Act where
  task : ℕ
  answer : Answer

/-- Thread `i` goes on with the result of a call that has led from `s` to `s'`. -/
def State.resumed (s s' : State) (i : ℕ) (result : Result) : State :=
  { s' with handlers := Function.update s.handlers i ((s.handlers i).resume result) }

def step (s : State) (a : Act) : Option State :=
  (s.handlers a.task).call.bind (fun call =>
    (exec s a.task a.answer call).map (fun out => s.resumed out.1 a.task out.2))

theorem step_eq_some_iff {s t : State} {a : Act} :
    step s a = some t ↔ ∃ call s' result, (s.handlers a.task).call = some call ∧
      exec s a.task a.answer call = some (s', result) ∧ t = s.resumed s' a.task result := by
  simp only [step, Option.bind_eq_some_iff, Option.map_eq_some_iff, Prod.exists]
  constructor
  · intro h
    obtain ⟨call, hcall, s', result, hexec, rfl⟩ := h
    exact ⟨call, s', result, hcall, hexec, rfl⟩
  · intro h
    obtain ⟨call, s', result, hcall, hexec, rfl⟩ := h
    exact ⟨call, hcall, s', result, hexec, rfl⟩

theorem State.resumed_self (s s' : State) (i : ℕ) (result : Result) :
    (s.resumed s' i result).handlers i = (s.handlers i).resume result :=
  Function.update_self ..

theorem State.resumed_of_ne (s s' : State) {i j : ℕ} (result : Result) (h : j ≠ i) :
    (s.resumed s' i result).handlers j = s.handlers j :=
  Function.update_of_ne h ..

end Aesd.Server
