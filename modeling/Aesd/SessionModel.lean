import Aesd.DeviceCalls
import Aesd.FailedWrites
import Aesd.LookupWidths
import Aesd.ReceiveLoop
import Aesd.SeekTo

/-!
One client that is served alone and whose calls all succeed. What it can see of the
server is its own connection, the command log of the device, the position of its
open file and the lock; blocks, slots and descriptor numbers do not show. So a
session is a machine without choices, and every run of the server follows it.
-/
namespace Aesd.Driver

/-- The ring after the commands `cmds`, without their bytes. -/
def shape (cmds : List (List UInt8)) : CircularBuffer :=
  (CircularBuffer.init.addEntries (cmds.map (fun cmd => ⟨none, cmd.length⟩))).1

/-- The position after a seek-to-command on a device that has stored `cmds`. -/
def seekPos (cmds : List (List UInt8)) (pos : ℤ) (seekto : Seekto) : ℤ :=
  (aesdAdjustFileOffset ⟨shape cmds, ⟨none, 0⟩, 0⟩ pos false seekto).fPos

theorem Holds.slot_size {k : Kernel} {es : List BufferEntry} {cmds : List (List UInt8)}
    (h : Holds k es cmds) (i : ℕ) (hi : i < 10) :
    (k.dev.circularBuffer.slot i).size = ((shape cmds).slot i).size := by
  have hshape : (shape cmds).Tracks (cmds.map (fun cmd => ⟨none, cmd.length⟩)) :=
    CircularBuffer.tracks_addEntries _
  apply h.tracks.agree hshape BufferEntry.size BufferEntry.size rfl _ i hi
  rw [h.sizes, List.map_map]
  rfl

theorem sumSlots_congr {buffer buffer' : CircularBuffer} (c : ℕ)
    (h : ∀ i < c, (buffer.slot i).size = (buffer'.slot i).size) :
    sumSlots buffer c = sumSlots buffer' c := by
  induction c with
  | zero => rfl
  | succ c ih =>
    rw [sumSlots, sumSlots, ih (fun i hi => h i (Nat.lt_succ_of_lt hi)), h c (Nat.lt_succ_self c)]

/-- A seek looks at the sizes in the slots and at nothing else. -/
theorem adjust_congr (dev dev' : Dev) (pos : ℤ) (seekto : Seekto)
    (h : ∀ i < 10, (dev.circularBuffer.slot i).size = (dev'.circularBuffer.slot i).size) :
    aesdAdjustFileOffset dev pos false seekto = aesdAdjustFileOffset dev' pos false seekto := by
  rw [aesdAdjustFileOffset, aesdAdjustFileOffset, maxWriteOperationsSupported]
  by_cases hc : seekto.writeCmd < 10
  · rw [h seekto.writeCmd hc, sumSlots_congr seekto.writeCmd (fun i hi => h i (by omega))]
  · simp only [Nat.le_of_not_lt hc, true_or, if_true]

theorem Holds.ioctl_eq {k : Kernel} {es : List BufferEntry} {cmds : List (List UInt8)}
    (h : Holds k es cmds) (pos : ℤ) (seekto : Seekto) :
    (aesdIoctl k.dev pos iocSeekto (some seekto) false).fPos = seekPos cmds pos seekto := by
  rw [aesdIoctl_seekto, seekPos, adjust_congr _ ⟨shape cmds, ⟨none, 0⟩, 0⟩ pos seekto h.slot_size]

end Aesd.Driver

namespace Aesd.Server

open Driver Runs

/-- What one client sees of the server. -/
structure Session where
  handler : Handler
  inbox : List Recv
  log : CommandLog
  fPos : Option ℤ
  locked : Bool
  sent : List UInt8
  issued : List Seekto

/-- The seek request that the next call of a handler issues, if it is an `ioctl`. -/
def Handler.issues (h : Handler) : List Seekto :=
  match h.pc with
  | .ioctl seekto => [seekto]
  | _ => []

namespace Session

/-- One call. It has no result where the call would block, where no file is open,
where nothing is written, and where the bytes collected would not fit in `size_t`; a
handler that gets its buffer does not close `sockfd`. -/
def exec (c : Session) : Call → Option (Session × Result)
  | .getpeername => some (c, .ok)
  | .malloc => some (c, .ok)
  | .openDevice => some ({ c with fPos := some 0 }, .ok)
  | .recv =>
      match c.inbox with
      | [] => none
      | r :: rest => some ({ c with inbox := rest }, .recv r)
  | .ioctl seekto => c.fPos.map (fun pos =>
      ({ c with fPos := some (seekPos c.log.closed pos seekto) }, .ok))
  | .write buf =>
      if buf.bytes ≠ [] ∧ c.log.pending.length + buf.bytes.length < 2 ^ 64 then
        c.fPos.map (fun _ =>
          ({ c with log := c.log.append buf.bytes, fPos := some buf.bytes.length }, .ok))
      else none
  | .lseek => c.fPos.map (fun _ => ({ c with fPos := some 0 }, .ok))
  | .read => c.fPos.map (fun pos =>
      let data := dataAt (c.log.closed.rtake 10) pos 1024
      ({ c with fPos := some (if data = [] then pos else loffT (pos + data.length)) },
        if data = [] then .ok else .data data))
  | .close => c.fPos.map (fun _ => ({ c with fPos := none }, .ok))
  | .closeSockfd => none
  | .send data => some ({ c with sent := c.sent ++ data }, .ok)
  | .lock => if c.locked then none else some ({ c with locked := true }, .ok)
  | .unlock => some ({ c with locked := false }, .ok)

def next (c : Session) : Option Session :=
  c.handler.call.bind (fun call => (c.exec call).map (fun out =>
    { out.1 with
      handler := c.handler.resume out.2
      issued := c.handler.issues ++ c.issued }))

/-- Call after call, the session gets from `c` to `d`. -/
def Goes (c d : Session) : Prop := Relation.ReflTransGen (fun c d => c.next = some d) c d

theorem next_eq_some_iff {c d : Session} :
    c.next = some d ↔ ∃ call e result, c.handler.call = some call ∧
      c.exec call = some (e, result) ∧
      d = { e with
        handler := c.handler.resume result
        issued := c.handler.issues ++ c.issued } := by
  simp only [next, Option.bind_eq_some_iff, Option.map_eq_some_iff, Prod.exists]
  constructor
  · intro h
    obtain ⟨call, hcall, e, result, hexec, rfl⟩ := h
    exact ⟨call, e, result, hcall, hexec, rfl⟩
  · intro h
    obtain ⟨call, e, result, hcall, hexec, rfl⟩ := h
    exact ⟨call, hcall, e, result, hexec, rfl⟩

theorem unfinished_of_next {c d : Session} (hnext : c.next = some d) :
    c.handler.pc ≠ .returned := by
  intro hreturned
  obtain ⟨call, _, _, hcall, _⟩ := next_eq_some_iff.mp hnext
  simp [Handler.call, hreturned] at hcall

/-- A session writes only to an open file. -/
theorem isSome_of_next {c d : Session} (hnext : c.next = some d)
    (hwrite : c.handler.pc.isWrite = true) : c.fPos.isSome = true := by
  obtain ⟨call, e, result, hcall, hexec, _⟩ := next_eq_some_iff.mp hnext
  obtain ⟨buf, hbuf⟩ := c.handler.call_of_isWrite hwrite
  cases Option.some.inj (hcall.symm.trans hbuf)
  simp only [exec] at hexec
  split at hexec
  · obtain ⟨pos, hpos, _⟩ := Option.map_eq_some_iff.mp hexec
    rw [hpos, Option.isSome_some]
  · cases hexec

end Session

/-- A state of the server and the seek requests issued so far, newest first. -/
structure Observed where
  state : State
  issued : List Seekto

def observe (o : Observed) (a : Act) : Option Observed :=
  (step o.state a).map (fun t => ⟨t, (o.state.handlers a.task).issues ++ o.issued⟩)

/-- Only client `i` is served, and its calls succeed. -/
structure Alone (i : ℕ) (s : State) (a : Act) : Prop where
  task : a.task = i
  answer : a.answer.Granted
  unfinished : (s.handlers i).pc ≠ .returned

/-- The server as client `i` sees it, apart from the handler itself. -/
structure Sees (i : ℕ) (c : Session) (s : State) : Prop where
  inbox : s.inbox i = c.inbox
  refines : Refines s.kernel c.log
  fits : c.log.Fits
  fPos : s.device.map (fun d => d.2.fPos) = c.fPos
  locked : s.fileMutex.isSome = c.locked
  sent : s.sent i = c.sent

/-- The server is where the session `c` of client `i` is. -/
structure Follows (i : ℕ) (c : Session) (o : Observed) : Prop where
  handler : o.state.handlers i = c.handler
  sees : Sees i c o.state
  issued : o.issued = c.issued

theorem State.device_setPos {s : State} {fd : ℕ} {f : OpenFile} (pos : ℤ) (i : ℕ)
    (op : DeviceOp) (h : s.device = some (fd, f)) :
    ((s.record i op).setPos fd f pos).device = some (fd, { f with fPos := pos }) := by
  rw [device_eq_some_iff]
  exact ⟨((s.device_eq_some_iff fd f).mp h).1, Store.data_set_self ..⟩

namespace Sees

variable {i : ℕ} {c d : Session} {s : State} {answer : Answer} {call : Call} {result : Result}

theorem exists_file (h : Sees i c s) {pos : ℤ} (hpos : c.fPos = some pos) :
    ∃ fd f, s.device = some (fd, f) ∧ f.fPos = pos := by
  have hmap := h.fPos
  rw [hpos, Option.map_eq_some_iff] at hmap
  obtain ⟨fdf, hdevice, hf⟩ := hmap
  exact ⟨fdf.1, fdf.2, hdevice, hf⟩

/-- A call that only moves the position. -/
theorem setPos (h : Sees i c s) {fd : ℕ} {f : OpenFile} (hdevice : s.device = some (fd, f))
    (op : DeviceOp) (pos : ℤ) :
    Sees i { c with fPos := some pos } ((s.record i op).setPos fd f pos) where
  inbox := h.inbox
  refines := h.refines
  fits := h.fits
  fPos := by rw [State.device_setPos pos i op hdevice, Option.map_some]
  locked := h.locked
  sent := h.sent

theorem write (h : Sees i c s) (hanswer : answer.Granted) {buf : UserBuf} {pos : ℤ}
    (hpos : c.fPos = some pos) (hne : buf.bytes ≠ [])
    (hlt : c.log.pending.length + buf.bytes.length < 2 ^ 64) :
    ∃ s', exec s i answer (.write buf) = some (s', .ok) ∧
      Sees i { c with log := c.log.append buf.bytes, fPos := some buf.bytes.length } s' := by
  obtain ⟨fd, f, hdevice, _⟩ := h.exists_file hpos
  obtain ⟨s', hs'⟩ := exec_write_defined (i := i) h.refines hanswer.toWrites hdevice hne hlt
  have hrefines := (exec_write h.refines hanswer.toWrites hdevice hne hs').1
  have hframe := exec_frame hs'
  obtain ⟨hmutex, hsent⟩ := hframe.of_plain rfl
  refine ⟨s', hs', ?_, hrefines, h.fits.append _ hlt, ?_, ?_, ?_⟩
  · exact (congrFun (hframe.inbox (by simp)) i).trans h.inbox
  · simp only [exec, State.onDevice, hdevice, Option.map_eq_some_iff] at hs'
    obtain ⟨r, hr, hout⟩ := hs'
    cases hout
    change (((s.record i .write).setPos fd f r.fPos).device).map _ = _
    rw [State.device_setPos r.fPos i .write hdevice, Option.map_some,
      aesdWrite_fPos hanswer.uncopied (hanswer.payload buf f.fPos hne) hr]
  · rw [hmutex]
    exact h.locked
  · exact (congrFun hsent i).trans h.sent

theorem read (h : Sees i c s) (hanswer : answer.Granted) {pos : ℤ} (hpos : c.fPos = some pos) :
    ∃ s', exec s i answer .read =
        some (s', if dataAt (c.log.closed.rtake 10) pos 1024 = [] then .ok
          else .data (dataAt (c.log.closed.rtake 10) pos 1024)) ∧
      Sees i { c with fPos := some (if dataAt (c.log.closed.rtake 10) pos 1024 = [] then pos
        else loffT (pos + (dataAt (c.log.closed.rtake 10) pos 1024).length)) } s' := by
  obtain ⟨fd, f, hdevice, rfl⟩ := h.exists_file hpos
  obtain ⟨es, hholds⟩ := h.refines.1
  have hread := hholds.shows.read_dataAt
    (fun cmd hcmd => h.fits.1 cmd (List.mem_of_mem_drop hcmd)) f.fPos 1024 (by decide)
    (by decide)
  simp only [exec, State.onDevice, hdevice, hanswer.uncopied]
  rw [show (s.record i .read).kernel = s.kernel from rfl, hread, Option.map_some]
  generalize dataAt (c.log.closed.rtake 10) f.fPos 1024 = data
  refine ⟨_, ?_, h.setPos hdevice .read _⟩
  by_cases hnil : data = []
  · simp [hnil]
  · simp [hnil, List.length_pos_iff]

/-- Every call of the session is one of the server. -/
theorem exec (h : Sees i c s) (hanswer : answer.Granted)
    (hexec : c.exec call = some (d, result)) :
    ∃ s', Server.exec s i answer call = some (s', result) ∧ Sees i d s' := by
  cases call with
  | getpeername =>
    cases hexec
    exact ⟨s, exec_granted s i hanswer.granted (Or.inl rfl), h⟩
  | malloc =>
    cases hexec
    exact ⟨s, exec_granted s i hanswer.granted (Or.inr rfl), h⟩
  | openDevice =>
    cases hexec
    obtain ⟨pick, hpick⟩ := Option.ne_none_iff_exists'.mp hanswer.fd
    simp only [Server.exec, hpick]
    refine ⟨_, rfl, h.inbox, h.refines, h.fits, ?_, h.locked, h.sent⟩
    simp [State.device, State.openFile, Fd.openFile, Store.data_set_self]
  | recv =>
    simp only [Session.exec] at hexec
    split at hexec
    · cases hexec
    · rename_i r rest hinbox
      cases hexec
      simp only [Server.exec, h.inbox, hinbox]
      exact ⟨_, rfl, Function.update_self .., h.refines, h.fits, h.fPos, h.locked, h.sent⟩
  | ioctl seekto =>
    obtain ⟨pos, hpos, hout⟩ := Option.map_eq_some_iff.mp hexec
    cases hout
    obtain ⟨fd, f, hdevice, rfl⟩ := h.exists_file hpos
    obtain ⟨es, hholds⟩ := h.refines.1
    simp only [Server.exec, State.onDevice, hdevice, hanswer.interrupted]
    refine ⟨_, rfl, ?_⟩
    rw [← hholds.ioctl_eq f.fPos seekto]
    exact h.setPos hdevice .ioctl _
  | write buf =>
    simp only [Session.exec] at hexec
    split at hexec
    · rename_i hbuf
      obtain ⟨pos, hpos, hout⟩ := Option.map_eq_some_iff.mp hexec
      cases hout
      exact h.write hanswer hpos hbuf.1 hbuf.2
    · cases hexec
  | lseek =>
    obtain ⟨pos, hpos, hout⟩ := Option.map_eq_some_iff.mp hexec
    cases hout
    obtain ⟨fd, f, hdevice, rfl⟩ := h.exists_file hpos
    simp only [Server.exec, State.onDevice, hdevice]
    exact ⟨_, rfl, h.setPos hdevice .lseek 0⟩
  | read =>
    obtain ⟨pos, hpos, hout⟩ := Option.map_eq_some_iff.mp hexec
    cases hout
    exact h.read hanswer hpos
  | close =>
    obtain ⟨pos, hpos, hout⟩ := Option.map_eq_some_iff.mp hexec
    cases hout
    obtain ⟨fd, f, hdevice, rfl⟩ := h.exists_file hpos
    refine ⟨_, exec_close i answer hdevice, h.inbox, h.refines, h.fits, ?_, h.locked, h.sent⟩
    rw [device_closed i hdevice, Option.map_none]
  | closeSockfd => cases hexec
  | send data =>
    cases hexec
    simp only [Server.exec, hanswer.unsent]
    refine ⟨_, rfl, h.inbox, h.refines, h.fits, h.fPos, h.locked, ?_⟩
    simp [h.sent]
  | lock =>
    simp only [Session.exec] at hexec
    split at hexec
    · cases hexec
    · rename_i hfree
      cases hexec
      have hmutex : s.fileMutex = none := by
        rw [← h.locked] at hfree
        simpa using hfree
      simp only [Server.exec, hmutex]
      exact ⟨_, rfl, h.inbox, h.refines, h.fits, h.fPos, rfl, h.sent⟩
  | unlock =>
    cases hexec
    exact ⟨_, rfl, h.inbox, h.refines, h.fits, h.fPos, rfl, h.sent⟩

/-- Every step of the session is one of the server. -/
theorem step (h : Sees i c s) (hhandler : s.handlers i = c.handler) (hnext : c.next = some d)
    (hanswer : answer.Granted) :
    ∃ call s' result, (s.handlers i).call = some call ∧
      Server.exec s i answer call = some (s', result) ∧ Sees i d (s.resumed s' i result) ∧
      (s.resumed s' i result).handlers i = d.handler := by
  obtain ⟨call, e, result, hcall, hexec, rfl⟩ := Session.next_eq_some_iff.mp hnext
  obtain ⟨s', hs', hsees⟩ := h.exec hanswer hexec
  refine ⟨call, s', result, hhandler ▸ hcall, hs', ?_, ?_⟩
  · exact ⟨hsees.inbox, hsees.refines, hsees.fits, hsees.fPos, hsees.locked, hsees.sent⟩
  · rw [State.resumed_self, hhandler]

end Sees

namespace Follows

variable {i : ℕ} {c d : Session} {o : Observed}

theorem step (h : Follows i c o) (hnext : c.next = some d) :
    (∃ a, Alone i o.state a) ∧
      ∀ a, Alone i o.state a → ∃ t, observe o a = some t ∧ Follows i d t := by
  constructor
  · refine ⟨⟨i, .granting 0⟩, rfl, Answer.granting_granted 0, ?_⟩
    rw [h.handler]
    exact Session.unfinished_of_next hnext
  · intro a halone
    obtain ⟨rfl, hanswer, _⟩ := halone
    obtain ⟨call, s', result, hcall, hs', hsees, hhandler⟩ := h.sees.step h.handler hnext hanswer
    have hstep : Server.step o.state a = some (o.state.resumed s' a.task result) :=
      step_eq_some_iff.mpr ⟨call, s', result, hcall, hs', rfl⟩
    refine ⟨_, by rw [observe, hstep, Option.map_some], hhandler, hsees, ?_⟩
    obtain ⟨_, _, _, _, _, rfl⟩ := Session.next_eq_some_iff.mp hnext
    rw [h.issued, h.handler]

/-- Where the session gets, every run of the server gets. -/
theorem leads (h : Follows i c o) (hgoes : c.Goes d) :
    Leads observe (fun o a => Alone i o.state a) (Follows i d) o :=
  leads_of_simulation (Follows i) (fun _ _ _ h hnext => h.step hnext) hgoes h

end Follows

/-- Client `i` has just connected, nobody holds the lock, and the device, after
whatever writes, has no pending command. -/
structure Connects (i : ℕ) (s : State) : Prop where
  reached : ∃ calls, runWrites aesdInitModule calls = some s.kernel
  idle : s.kernel.dev.entryCache.buffptr = none
  start : s.handlers i = .start
  mutex : s.fileMutex = none

theorem Connects.follows {i : ℕ} {s : State} (h : Connects i s) :
    ∃ closed fPos,
      Follows i ⟨.start, s.inbox i, ⟨closed, []⟩, fPos, false, s.sent i, []⟩ ⟨s, []⟩ := by
  obtain ⟨calls, hrun⟩ := h.reached
  obtain ⟨closed, hrefines, hfits⟩ := exists_refines_idle calls s.kernel hrun h.idle
  have hsees : Sees i ⟨.start, s.inbox i, ⟨closed, []⟩, s.device.map (fun d => d.2.fPos), false,
      s.sent i, []⟩ s := ⟨rfl, hrefines, hfits, rfl, by rw [h.mutex]; rfl, rfl⟩
  exact ⟨closed, _, h.start, hsees, rfl⟩

end Aesd.Server
