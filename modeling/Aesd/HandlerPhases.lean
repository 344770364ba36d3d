import Aesd.ServerState

/-!
The phases of a handler between an open of the device and the close that belongs to
it, on its proper paths, and what the calls do to `file` and the descriptors.
-/
namespace Aesd.Server

open Driver

namespace Handler

/-- Between an open and the close that belongs to it. -/
def Holding (h : Handler) : Prop :=
  match h.pc with
  | .recv | .closeOnError | .ioctl _ | .write _ | .lseek | .closeFile => True
  | .lockMutex | .mallocWriteBuf => h.needToReopen = false
  | .read | .send _ | .closeLast => True
  | _ => False

/-- `needToReopen` agrees with the way in which the receive loop was left, and
neither the exit without a buffer nor the one after a receive error was taken. -/
def Sane (h : Handler) : Prop :=
  match h.pc with
  | .closeSockfd | .closeOnError => False
  | .ioctl _ => h.needToReopen = false
  | .lseek | .closeFile | .reopenFile => h.needToReopen = true
  | _ => True

/-- The results that keep a handler on its proper path. -/
def Regular (h : Handler) (result : Result) : Prop :=
  match h.pc, result with
  | .recv, .recv (.data _) => h.receivedError = false ∧ h.connectionClosed = false
  | .mallocBuffer, .ok => True
  | .mallocBuffer, _ => False
  | .mallocWriteBuf, .ok => True
  | .mallocWriteBuf, _ => h.needToReopen = true
  | _, _ => True

theorem afterWrite_proper (h : Handler) : h.afterWrite.Sane ∧ h.afterWrite.Holding := by
  unfold afterWrite
  split
  · exact ⟨rfl, trivial⟩
  · exact ⟨trivial, trivial⟩

theorem receive_proper (h : Handler) (chunk : Chunk) (herror : h.receivedError = false)
    (hclosed : h.connectionClosed = false) :
    (h.receive chunk).Sane ∧ (h.receive chunk).Holding := by
  simp only [receive, herror, hclosed, Bool.or_self, Bool.false_eq_true, if_false]
  split
  · exact ⟨rfl, trivial⟩
  · exact ⟨trivial, trivial⟩

theorem sane_resume (h : Handler) (result : Result) (hsane : h.Sane)
    (hregular : h.Regular result) : (h.resume result).Sane := by
  obtain ⟨pc, buffer, closed, error, reopen⟩ := h
  cases pc with
  | recv =>
    rcases result with _ | _ | _ | (chunk | _ | _)
    all_goals first | exact trivial | skip
    exact (receive_proper _ chunk hregular.1 hregular.2).1
  | write n => exact (afterWrite_proper _).1
  | mallocBuffer =>
    cases result with
    | ok => exact trivial
    | _ => exact hregular.elim
  | mallocWriteBuf => cases reopen <;> cases result <;> simp_all [Sane, resume, Regular]
  | _ => cases result <;> simp_all [Sane, resume]

theorem Sane.not_closeSockfd {h : Handler} (hsane : h.Sane) : h.call ≠ some .closeSockfd := by
  obtain ⟨pc, buffer, closed, error, reopen⟩ := h
  cases pc <;> simp_all [Sane, call]

/-- Opening starts a holding phase. -/
theorem holding_open (h : Handler) (result : Result) (hcall : h.call = some .openDevice) :
    ¬ h.Holding ∧ (h.resume result).Holding := by
  obtain ⟨pc, buffer, closed, error, reopen⟩ := h
  cases pc <;> simp_all [call, Holding, resume]

/-- Closing ends it. -/
theorem holding_close (h : Handler) (result : Result) (hsane : h.Sane)
    (hcall : h.call = some .close) : h.Holding ∧ ¬ (h.resume result).Holding := by
  obtain ⟨pc, buffer, closed, error, reopen⟩ := h
  cases pc <;> simp_all [call, Holding, resume, Sane]

theorem holding_use (h : Handler) (result : Result) (call : Call) (op : DeviceOp)
    (hsane : h.Sane) (hcall : h.call = some call) (hop : call.deviceOp = some op) :
    h.Holding ∧ (h.resume result).Holding := by
  obtain ⟨pc, buffer, closed, error, reopen⟩ := h
  cases pc with
  | ioctl seekto => exact ⟨trivial, hsane⟩
  | write n => exact ⟨trivial, (afterWrite_proper _).2⟩
  | lseek => exact ⟨trivial, trivial⟩
  | read => cases result <;> exact ⟨trivial, trivial⟩
  | returned => cases hcall
  | _ =>
    cases hcall
    cases hop

/-- Every other call leaves the phase as it is. -/
theorem holding_other (h : Handler) (result : Result) (call : Call) (hsane : h.Sane)
    (hregular : h.Regular result) (hcall : h.call = some call)
    (hopen : call ≠ .openDevice) (hclose : call ≠ .close) (hop : call.deviceOp = none) :
    (h.resume result).Holding ↔ h.Holding := by
  obtain ⟨pc, buffer, closed, error, reopen⟩ := h
  cases pc with
  | recv =>
    rcases result with _ | _ | _ | (chunk | _ | _)
    · rfl
    · rfl
    · rfl
    · simp only [Holding, iff_true]
      exact (receive_proper _ chunk hregular.1 hregular.2).2
    · rfl
    · rfl
  | mallocWriteBuf => cases reopen <;> cases result <;> simp_all [Holding, resume, Regular]
  | getpeername => cases result <;> rfl
  | mallocBuffer => cases result <;> rfl
  | closeSockfd => exact hsane.elim
  | lockMutex => rfl
  | unlockOnError => rfl
  | send data => rfl
  | unlockMutex => rfl
  | returned => rfl
  | _ =>
    cases hcall
    simp [Call.deviceOp] at hopen hclose hop

end Handler

section Effects

variable {s t : State} {i : ℕ} {answer : Answer} {result : Result} {fd : ℕ} {f : OpenFile}

theorem exec_other (call : Call) (hopen : call ≠ .openDevice) (hclose : call ≠ .close)
    (hsockfd : call ≠ .closeSockfd) (hop : call.deviceOp = none)
    (hexec : exec s i answer call = some (t, result)) :
    t.fds = s.fds ∧ t.file = s.file ∧ t.log = s.log ∧ t.opens = s.opens := by
  cases call with
  | getpeername =>
    cases hexec
    exact ⟨rfl, rfl, rfl, rfl⟩
  | malloc =>
    cases hexec
    exact ⟨rfl, rfl, rfl, rfl⟩
  | recv =>
    simp only [exec] at hexec
    split at hexec
    · cases hexec
    · cases hexec
      exact ⟨rfl, rfl, rfl, rfl⟩
  | send data =>
    cases hexec
    exact ⟨rfl, rfl, rfl, rfl⟩
  | lock =>
    simp only [exec] at hexec
    split at hexec
    · cases hexec
      exact ⟨rfl, rfl, rfl, rfl⟩
    · cases hexec
  | unlock =>
    cases hexec
    exact ⟨rfl, rfl, rfl, rfl⟩
  | _ => simp_all [Call.deviceOp]

theorem exec_open (pick : ℕ) (hfd : answer.fd = some pick)
    (hexec : exec s i answer .openDevice = some (t, result)) :
    t.fds = s.fds.set (s.fds.fresh pick) (.device ⟨i, s.opens, 0⟩) ∧
      t.file = some (s.fds.fresh pick) ∧
      t.log = s.log ++ [⟨i, .openDevice, some s.opens⟩] ∧ t.opens = s.opens + 1 := by
  simp only [exec, hfd] at hexec
  cases hexec
  exact ⟨rfl, rfl, rfl, rfl⟩

theorem exec_closed (hdevice : s.device = some (fd, f))
    (hexec : exec s i answer .close = some (t, result)) :
    t.fds = s.fds.erase fd ∧ t.log = s.log ++ [⟨i, .close, some f.serial⟩] ∧
      t.opens = s.opens := by
  rw [exec_close i answer hdevice] at hexec
  cases hexec
  exact ⟨rfl, by simp [State.record, hdevice], rfl⟩

theorem exec_use (call : Call) (op : DeviceOp) (hop : call.deviceOp = some op)
    (hdevice : s.device = some (fd, f)) (hexec : exec s i answer call = some (t, result)) :
    ∃ pos, t.fds = s.fds.set fd (.device { f with fPos := pos }) ∧ t.file = s.file ∧
      t.log = s.log ++ [⟨i, op, some f.serial⟩] ∧ t.opens = s.opens := by
  cases call with
  | ioctl seekto =>
    cases hop
    simp only [exec, State.onDevice, hdevice] at hexec
    cases hexec
    exact ⟨_, rfl, rfl, by simp [State.record, State.setPos, hdevice], rfl⟩
  | write buf =>
    cases hop
    simp only [exec, State.onDevice, hdevice, Option.map_eq_some_iff] at hexec
    obtain ⟨r, _, hout⟩ := hexec
    cases hout
    exact ⟨_, rfl, rfl, by simp [State.record, State.setPos, hdevice], rfl⟩
  | lseek =>
    cases hop
    simp only [exec, State.onDevice, hdevice] at hexec
    cases hexec
    exact ⟨_, rfl, rfl, by simp [State.record, State.setPos, hdevice], rfl⟩
  | read =>
    cases hop
    simp only [exec, State.onDevice, hdevice, Option.map_eq_some_iff] at hexec
    obtain ⟨r, _, hout⟩ := hexec
    cases hout
    exact ⟨_, rfl, rfl, by simp [State.record, State.setPos, hdevice], rfl⟩
  | _ => cases hop

end Effects

end Aesd.Server
