import Aesd.Store
import Aesd.Runs

/-!
The accept loop of `createTCPServer` and the lives of the threads it creates. One step is one
call of the main thread or of a handler, so the threads run while the loop goes on. Every
client socket and every `client_info` has exactly one owner at any time; the list of
nodes has the created threads, newest first. The handlers share the variable `file`, so a
`close(file)` may find its number in the hands of a client.
-/
namespace Aesd.Acceptor

/-- What a descriptor of the process stands for. -/
inductive Fd
  | listener
  | client (n : ℕ)
  | other
  deriving DecidableEq

def Fd.isClient : Fd → Bool
  | .client _ => true
  | _ => false

/-- Where the main thread stands, named by what it does next. -/
inductive Pc
  | accept
  | accepting
  | mallocInfo
  | mallocNode
  | create
  | link
  | returned
  deriving DecidableEq

/-- The main thread has accepted a connection and is not through with it. -/
def Pc.busy : Pc → Bool
  | .accept | .accepting | .returned => false
  | _ => true

/-- The thread of a connection. One that returns without closing its client socket is
stranded. -/
inductive Stage
  | absent
  | created
  | running
  | stranded
  | finished
  deriving DecidableEq

/-- The four ways in which `handle_client` can return. -/
inductive Exit
  | noPeerName
  | noBuffer
  | noWriteBuf
  | served
  deriving DecidableEq

/-- The process. Connections are numbered in the order of their acceptance; `infos` and `nodes`
are the allocated `client_info_t` and `Node`, `head` is the list from `head` on; `file` is
`none` after an `open` that has failed. How often `pthread_create` has failed, and whether
the number in `sockfd` has been closed, is recorded. -/
structure Process where
  fds : Store Fd
  sockfd : ℕ
  file : Option ℕ
  pc : Pc
  accepted : ℕ
  clientSockfd : ℕ → ℕ
  stage : ℕ → Stage
  infos : List ℕ
  nodes : List ℕ
  head : List ℕ
  numThreads : ℕ
  createFailed : ℕ
  sockfdClosed : Bool

/-- What happens next. The kernel decides on the result of a call of the main thread: the
number `fd`, or no result. -/
inductive Act
  | main (fd : Option ℕ)
  | begin (n : ℕ)
  | openFile (n : ℕ) (fd : Option ℕ)
  | closeFile (n : ℕ)
  | finish (n : ℕ) (exit : Exit)
  | openOther (fd : ℕ)
  | closeOther (fd : ℕ)

namespace Process

/-- The connection the main thread is busy with. -/
def current (s : Process) : ℕ := s.accepted - 1

/-- `close(client_sockfd)` -/
def closeClient (s : Process) (n : ℕ) : Process :=
  { s with fds := s.fds.erase (s.clientSockfd n) }

/-- `free(client_info)` -/
def freeInfo (s : Process) (n : ℕ) : Process := { s with infos := s.infos.erase n }

/-- `close` with what a global variable has, whatever that number stands for by now. -/
def closeNumber (s : Process) (fd : Option ℕ) : Process :=
  { s with
    fds := fd.elim s.fds s.fds.erase
    sockfdClosed := s.sockfdClosed || decide (fd = some s.sockfd) }

/-- `close(file)` -/
def closeFile (s : Process) : Process := s.closeNumber s.file

/-- The next step of the main thread. An `accept` that has begun on the listening socket can
still succeed after the number of that socket has been closed. -/
def mainStep (s : Process) (fd : Option ℕ) : Option Process :=
  match s.pc with
  | .accept =>
      if s.fds.data s.sockfd = some .listener then some { s with pc := .accepting }
      else some { s.closeFile with pc := .returned }
  | .accepting =>
      match fd with
      | none => some { s.closeFile with pc := .returned }
      | some pick =>
          some { s with
            fds := s.fds.set (s.fds.fresh pick) (.client s.accepted)
            clientSockfd := Function.update s.clientSockfd s.accepted (s.fds.fresh pick)
            accepted := s.accepted + 1
            pc := .mallocInfo }
  | .mallocInfo =>
      match fd with
      | none => some { s.closeClient s.current with pc := .accept }
      | some _ => some { s with infos := s.current :: s.infos, pc := .mallocNode }
  | .mallocNode =>
      match fd with
      | none => some { (s.closeClient s.current).freeInfo s.current with pc := .accept }
      | some _ => some { s with nodes := s.current :: s.nodes, pc := .create }
  | .create =>
      match fd with
      | none => some { (s.closeClient s.current).freeInfo s.current with
          createFailed := s.createFailed + 1
          pc := .accept }
      | some _ => some { s with
          stage := Function.update s.stage s.current .created
          pc := .link }
  | .link => some { s with
      head := s.current :: s.head
      numThreads := s.numThreads + 1
      pc := .accept }
  | .returned => none

/-- `free(client_info)` at the start of `handle_client`. -/
def beginStep (s : Process) (n : ℕ) : Option Process :=
  if s.stage n = .created then
    some { s.freeInfo n with stage := Function.update s.stage n .running }
  else none

/-- `file = open(...)` in a handler. -/
def openFileStep (s : Process) (n : ℕ) (fd : Option ℕ) : Option Process :=
  if s.stage n = .running then
    match fd with
    | none => some { s with file := none }
    | some pick => some { s with
        fds := s.fds.set (s.fds.fresh pick) .other
        file := some (s.fds.fresh pick) }
  else none

/-- Where `handle_client` returns. Without a buffer it closes `sockfd`, which is the listening
socket, in place of its own. -/
def finishStep (s : Process) (n : ℕ) (exit : Exit) : Option Process :=
  if s.stage n = .running then
    match exit with
    | .noPeerName | .served =>
        some { s.closeClient n with stage := Function.update s.stage n .finished }
    | .noBuffer => some { s.closeNumber (some s.sockfd) with
        stage := Function.update s.stage n .stranded }
    | .noWriteBuf => some { s with stage := Function.update s.stage n .stranded }
  else none

/-- The handlers that run may open and close `file` in any order, the one of `handle_client`
among them. Other parts of the process open and close what they need. -/
def step (s : Process) : Act → Option Process
  | .main fd => s.mainStep fd
  | .begin n => s.beginStep n
  | .openFile n fd => s.openFileStep n fd
  | .closeFile n => if s.stage n = .running then some s.closeFile else none
  | .finish n exit => s.finishStep n exit
  | .openOther fd => some { s with fds := s.fds.set (s.fds.fresh fd) .other }
  | .closeOther fd =>
      if s.fds.data fd = some .other then some { s with fds := s.fds.erase fd } else none

/-- The process before its first `accept`: only the listening socket, beside other files. -/
def start (fds : Store Fd) (sockfd : ℕ) (file : Option ℕ) : Process where
  fds := fds
  sockfd := sockfd
  file := file
  pc := .accept
  accepted := 0
  clientSockfd _ := 0
  stage _ := .absent
  infos := []
  nodes := []
  head := []
  numThreads := 0
  createFailed := 0
  sockfdClosed := false

/-- The number that a step closes through `file` or `sockfd`. -/
def closes (s : Process) : Act → Option ℕ
  | .main fd =>
      if s.pc = .accept ∧ s.fds.data s.sockfd ≠ some .listener ∨ s.pc = .accepting ∧ fd = none
      then s.file else none
  | .closeFile _ => s.file
  | .finish _ .noBuffer => some s.sockfd
  | _ => none

/-- A step that closes no client's socket through `file` or `sockfd`. -/
def Spares (s : Process) (a : Act) : Prop :=
  ∀ fd ∈ s.closes a, ∀ kind ∈ s.fds.data fd, kind.isClient = false

instance (s : Process) (a : Act) : Decidable (s.Spares a) :=
  inferInstanceAs (Decidable (∀ fd ∈ s.closes a, ∀ kind ∈ s.fds.data fd, kind.isClient = false))

/-- The main thread is busy with a connection whose thread has not been created. -/
def inFlight (s : Process) (n : ℕ) : Bool :=
  decide (s.accepted = n + 1) && (s.pc = .mallocInfo || s.pc = .mallocNode || s.pc = .create)

/-- The connection's socket has not been closed: the main thread or the thread of the
connection still has it, or that thread has returned without closing it. -/
def HasSocket (s : Process) (n : ℕ) : Prop :=
  s.inFlight n = true ∨ s.stage n = .created ∨ s.stage n = .running ∨ s.stage n = .stranded

/-- The connection's `client_info` has not been freed. -/
def HasInfo (s : Process) (n : ℕ) : Prop :=
  s.stage n = .created ∨ (s.accepted = n + 1 ∧ (s.pc = .mallocNode ∨ s.pc = .create))

end Process

end Aesd.Acceptor
