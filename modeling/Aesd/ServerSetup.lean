import Aesd.AcceptLoop
import Aesd.Frames

/-!
`main` and the part of `createTCPServer` before the accept loop, over the descriptor table of
the process. The variable `file` keeps the number of a descriptor that has been closed,
and `socket` gets that number again; so each path that gives up closes it twice. The
first `syslog` connects to the log and keeps a descriptor for it.
-/
namespace Aesd.Acceptor

/-- What the log makes of one message: whether it takes the message on the connection there
is, and, if not, whether it takes a new connection. -/
structure LogAnswer where
  sends : Bool
  connects : Bool

/-- What the kernel and the log answer: whether each call succeeds, and the result of `fork`.
The messages are the one about `setsockopt`, the one about what has failed after it, and
the one about the port. -/
structure SetupAnswer where
  opens : Bool
  socket : Bool
  setsockopt : Bool
  bind : Bool
  listen : Bool
  fork : ℤ
  setsid : Bool
  chdir : Bool
  logSetsockopt : LogAnswer
  logFailure : LogAnswer
  logListening : LogAnswer

/-- The descriptors of the process, the two global variables, and the number of the
descriptor that the C library has for the log. -/
structure Setup where
  fds : Store Fd
  file : ℕ
  sockfd : ℕ
  log : Option ℕ

/-- How the setup ends: with the accept loop, with -1, or with `exit`. -/
inductive Outcome
  | listening
  | returned
  | exited (status : ℕ)
  deriving DecidableEq

namespace Setup

/-- The process at the start of `main`. -/
def start (fds : Store Fd) : Setup := ⟨fds, 0, 0, none⟩

/-- `file = open(...)`, with the lowest number that is free. -/
def openFile (s : Setup) : Setup :=
  { s with fds := s.fds.set s.fds.lowest .other, file := s.fds.lowest }

/-- `sockfd = socket(...)` -/
def socket (s : Setup) : Setup :=
  { s with fds := s.fds.set s.fds.lowest .listener, sockfd := s.fds.lowest }

/-- `close`, which has no effect on a number that is not open. -/
def close (s : Setup) (fd : ℕ) : Setup := { s with fds := s.fds.erase fd }

/-- `closelog` closes the number it has for the log, if it has one. -/
def closelog (s : Setup) : Setup :=
  { s with fds := s.log.elim s.fds s.fds.erase, log := none }

/-- `syslog`, after an `openlog` without `LOG_NDELAY`: a message that cannot be sent makes it
close the log and connect again. -/
def syslog (s : Setup) (a : LogAnswer) : Setup :=
  if a.sends ∧ ∃ fd ∈ s.log, s.fds.data fd ≠ none then s
  else
    let s := s.closelog
    if a.connects then
      { s with fds := s.fds.set s.fds.lowest .other, log := some s.fds.lowest }
    else s

/-- `close(sockfd)`, `close(file)` and `closelog()`, as on the paths that give up. -/
def giveUp (s : Setup) : Setup := ((s.close s.sockfd).close s.file).closelog

/-- What the daemon does before it serves. -/
def deamonize (s : Setup) (a : SetupAnswer) : Setup × Outcome :=
  if a.fork < 0 then (s.giveUp, .exited 1)
  else if a.fork > 0 then (s, .exited 0)
  else if !a.setsid then (s.giveUp, .exited 1)
  else if !a.chdir then (s.giveUp, .exited 1)
  else (((s.close 0).close 1).close 2, .listening)

/-- The message about the port, before the first `accept`. -/
def announce (r : Setup × Outcome) (a : SetupAnswer) : Setup × Outcome :=
  if r.2 = .listening then (r.1.syslog a.logListening, r.2) else r

/-- `createTCPServer`, up to the accept loop. -/
def createTCPServer (s : Setup) (deamonize : Bool) (a : SetupAnswer) : Setup × Outcome :=
  if !a.opens then (s, .returned)
  else
    let s := s.openFile
    let s := s.close s.file
    if !a.socket then (((s.syslog a.logFailure).close s.file).closelog, .returned)
    else
      let s := s.socket
      let s := if a.setsockopt then s else s.syslog a.logSetsockopt
      if !a.bind then ((s.syslog a.logFailure).giveUp, .returned)
      else if !a.listen then ((s.syslog a.logFailure).giveUp, .returned)
      else announce (if deamonize then s.deamonize a else (s, .listening)) a

end Setup

/-- The loop over the arguments of `main`, which looks at `argv[1]` every time. -/
def deamonizeFlag (argv : List String) : Bool :=
  (List.range' 1 (argv.length - 1)).foldl
    (fun deamonize _ => if argv[1]? = some "-d" then true else deamonize) false

theorem deamonizeFlag_eq (argv : List String) :
    deamonizeFlag argv = decide (argv[1]? = some "-d") := by
  unfold deamonizeFlag
  by_cases hd : argv[1]? = some "-d"
  · obtain ⟨hlt, _⟩ := List.getElem?_eq_some_iff.mp hd
    obtain ⟨n, hn⟩ : ∃ n, argv.length - 1 = n + 1 := ⟨argv.length - 2, by omega⟩
    simp only [hd, if_true, hn, List.range'_succ, List.foldl_cons, decide_true]
    induction List.range' (1 + 1) n with
    | nil => rfl
    | cons _ _ ih => exact ih
  · simp only [hd, if_false, decide_false]
    induction List.range' 1 (argv.length - 1) with
    | nil => rfl
    | cons _ _ ih => exact ih

end Aesd.Acceptor
