import Aesd.ThreadBuffer

/-!
Any number of threads in `threadfunc`, with one file and one mutex between them. One step
is one call of one thread. The environment decides what the calls on the file and the
connection make of it: `fseek` may fail, `fwrite` may be short, `fread` may stop with an
error, and `send` may wait for its client and take less than it is given.
-/
namespace Aesd.ThreadFunc

open Driver Receiver

/-- A `FILE` open for reading and writing. -/
structure Stream where
  content : List UInt8
  pos : ℕ
  eof : Bool

namespace Stream

/-- `fseek(fd, 0, SEEK_END)` -/
def seekEnd (f : Stream) : Stream := ⟨f.content, f.content.length, false⟩

/-- `fseek(fd, 0, SEEK_SET)` -/
def seekStart (f : Stream) : Stream := ⟨f.content, 0, false⟩

def fwrite (f : Stream) (bytes : List UInt8) : Stream :=
  { f with
    content := f.content.take f.pos ++ bytes ++ f.content.drop (f.pos + bytes.length)
    pos := f.pos + bytes.length }

/-- What `fread` of `size` bytes delivers: less than that at the end of the file, or after
an error. -/
def next (f : Stream) (size : ℕ) (error : Option ℕ) : List UInt8 :=
  let data := (f.content.drop f.pos).take size
  match error with
  | none => data
  | some n => data.take n

/-- Only the end of the file is noted, an error is not. -/
def fread (f : Stream) (size : ℕ) (error : Option ℕ) : Stream :=
  let data := f.next size error
  { f with
    pos := f.pos + data.length
    eof := f.eof || (error.isNone && decide (data.length < size)) }

end Stream

/-- Where a thread stands, named by the call it makes next. -/
inductive Pc
  | recv
  | lock
  | seekEnd
  | fwrite
  | seekStart
  | feof
  | fread
  | send
  | unlock
  | done
  deriving DecidableEq

/-- Between the two calls on the mutex. -/
def Pc.inside : Pc → Bool
  | .recv | .lock | .done => false
  | _ => true

/-- Before the package goes into the file. -/
def Pc.early : Pc → Bool
  | .recv | .lock | .seekEnd | .fwrite => true
  | _ => false

/-- One thread: its variables, and all bytes it has received. -/
structure Thread where
  pc : Pc
  vars : Receiver
  readBytes : ℕ
  received : List UInt8

/-- The threads with their file and their mutex. The log records which thread has put
which bytes into the file. -/
structure Pool where
  file : Stream
  owner : Option ℕ
  threads : ℕ → Thread
  log : List (ℕ × List UInt8)

/-- The threads before their first `recv`. -/
def Pool.start (file : Stream) : Pool :=
  ⟨file, none, fun _ => ⟨.recv, Receiver.start, 0, []⟩, []⟩

/-- Which thread goes on, and what the environment decides in its step: whether `fseek`
succeeds, how many bytes `fwrite` leaves out, after how many an error stops `fread`,
whether `send` comes back, and how many bytes it leaves out. -/
structure Input where
  task : ℕ
  received : Option Piece
  outside : UInt8
  stale : ℕ → UInt8
  seeks : Bool
  unwritten : ℕ
  error : Option ℕ
  ready : Bool
  unsent : ℕ

/-- The file takes and gives everything, and so does the client. -/
@[mk_iff]
structure Input.Full (a : Input) : Prop where
  seeks : a.seeks = true
  unwritten : a.unwritten = 0
  error : a.error = none
  unsent : a.unsent = 0

instance (a : Input) : Decidable a.Full := decidable_of_iff _ (Input.full_iff a).symm

/-- Nothing fails and nothing waits. -/
def Input.plain (task : ℕ) (received : Option Piece) : Input :=
  ⟨task, received, 0, fun _ => 0, true, 0, none, true, 0⟩

namespace Thread

def goto (t : Thread) (pc : Pc) : Thread := { t with pc := pc }

/-- The end of the loop body, up to the loop condition. -/
def endTurn (t : Thread) (stale : ℕ → UInt8) : Thread :=
  let vars := (t.vars.noMore t.readBytes).grow stale
  { t with vars := vars, pc := if vars.isCompleted then .done else .recv }

/-- From the return of `recv` to the next call: only a newline at the end leads to the mutex. -/
def receive (t : Thread) (piece : Piece) (outside : UInt8) (stale : ℕ → UInt8) : Thread :=
  let t := { t with
    vars := t.vars.receive piece
    readBytes := piece.bytes.length
    received := t.received ++ piece.bytes }
  if t.vars.lastByte outside = newline then t.goto .lock else t.endTurn stale

/-- What `fwrite(buffer, 1, totalLen, fd)` puts into the file. -/
def written (t : Thread) (unwritten : ℕ) : List UInt8 :=
  t.vars.package.take (t.vars.package.length - unwritten)

def write (t : Thread) (unwritten : ℕ) : Thread :=
  { t with vars := { t.vars with stored := t.vars.stored ++ t.written unwritten } }

/-- After the package is in the file: `memset`, and the count starts again. -/
def clear (t : Thread) : Thread :=
  { t with vars := { t.vars with
      buffer := List.replicate t.vars.currentMaxSize.toNat 0 ++
        t.vars.buffer.drop t.vars.currentMaxSize.toNat
      totalLen := 0 } }

/-- `fread` stores at the start of the buffer. -/
def store (t : Thread) (data : List UInt8) : Thread :=
  { t with
    vars := { t.vars with buffer := data ++ t.vars.buffer.drop data.length }
    readBytes := data.length }

/-- `send(clientFd, buffer, readBytes, 0)` -/
def send (t : Thread) (unsent : ℕ) : Thread :=
  { t with vars := { t.vars with
      sent := t.vars.sent ++ t.vars.buffer.take (t.readBytes - unsent) } }

/-- `data->isCompleted = true` -/
def complete (t : Thread) : Thread := { t with vars := { t.vars with isCompleted := true } }

end Thread

namespace Pool

def set (p : Pool) (i : ℕ) (t : Thread) : Pool :=
  { p with threads := Function.update p.threads i t }

/-- One call of one thread. `pthread_mutex_lock` waits until the mutex is free, and `send`
until its client takes something. -/
def step (p : Pool) (a : Input) : Option Pool :=
  let t := p.threads a.task
  match t.pc with
  | .recv =>
      match a.received with
      | none => some p
      | some piece => some (p.set a.task (t.receive piece a.outside a.stale))
  | .lock =>
      match p.owner with
      | none => some { p.set a.task (t.goto .seekEnd) with owner := some a.task }
      | some _ => none
  | .seekEnd =>
      some { p.set a.task (t.goto .fwrite) with
        file := if a.seeks then p.file.seekEnd else p.file }
  | .fwrite =>
      some { p.set a.task ((t.write a.unwritten).goto .seekStart) with
        file := p.file.fwrite (t.written a.unwritten)
        log := p.log ++ [(a.task, t.written a.unwritten)] }
  | .seekStart =>
      some { p.set a.task (t.clear.goto .feof) with
        file := if a.seeks then p.file.seekStart else p.file }
  | .feof => some (p.set a.task (t.goto (if p.file.eof then .unlock else .fread)))
  | .fread =>
      let size := t.vars.currentMaxSize.toNat
      some { p.set a.task ((t.store (p.file.next size a.error)).goto .send) with
        file := p.file.fread size a.error }
  | .send => if a.ready then some (p.set a.task ((t.send a.unsent).goto .feof)) else none
  | .unlock => some { p.set a.task (t.complete.endTurn a.stale) with owner := none }
  | .done => none

/-- The steps, one by one, with thread `t` before it. -/
inductive Moves (p : Pool) (a : Input) (t : Thread) : Pool → Prop
  | failed (hpc : t.pc = .recv) : Moves p a t p
  | received (hpc : t.pc = .recv) (piece : Piece) :
      Moves p a t (p.set a.task (t.receive piece a.outside a.stale))
  | lock (hpc : t.pc = .lock) (hfree : p.owner = none) :
      Moves p a t { p.set a.task (t.goto .seekEnd) with owner := some a.task }
  | seekEnd (hpc : t.pc = .seekEnd) :
      Moves p a t { p.set a.task (t.goto .fwrite) with
        file := if a.seeks then p.file.seekEnd else p.file }
  | fwrite (hpc : t.pc = .fwrite) :
      Moves p a t { p.set a.task ((t.write a.unwritten).goto .seekStart) with
        file := p.file.fwrite (t.written a.unwritten)
        log := p.log ++ [(a.task, t.written a.unwritten)] }
  | seekStart (hpc : t.pc = .seekStart) :
      Moves p a t { p.set a.task (t.clear.goto .feof) with
        file := if a.seeks then p.file.seekStart else p.file }
  | atEnd (hpc : t.pc = .feof) (heof : p.file.eof = true) :
      Moves p a t (p.set a.task (t.goto .unlock))
  | notAtEnd (hpc : t.pc = .feof) (heof : p.file.eof = false) :
      Moves p a t (p.set a.task (t.goto .fread))
  | fread (hpc : t.pc = .fread) :
      Moves p a t { p.set a.task
          ((t.store (p.file.next t.vars.currentMaxSize.toNat a.error)).goto .send) with
        file := p.file.fread t.vars.currentMaxSize.toNat a.error }
  | send (hpc : t.pc = .send) (hready : a.ready = true) :
      Moves p a t (p.set a.task ((t.send a.unsent).goto .feof))
  | unlock (hpc : t.pc = .unlock) :
      Moves p a t { p.set a.task (t.complete.endTurn a.stale) with owner := none }

theorem moves_of_step {p q : Pool} {a : Input} (hstep : p.step a = some q) :
    Moves p a (p.threads a.task) q := by
  simp only [step] at hstep
  cases hpc : (p.threads a.task).pc with
  | recv =>
    rw [hpc] at hstep
    cases hr : a.received with
    | none =>
      rw [hr] at hstep
      cases hstep
      exact .failed hpc
    | some piece =>
      rw [hr] at hstep
      cases hstep
      exact .received hpc piece
  | lock =>
    rw [hpc] at hstep
    cases ho : p.owner with
    | some _ =>
      rw [ho] at hstep
      cases hstep
    | none =>
      rw [ho] at hstep
      cases hstep
      exact .lock hpc ho
  | seekEnd =>
    rw [hpc] at hstep
    cases hstep
    exact .seekEnd hpc
  | fwrite =>
    rw [hpc] at hstep
    cases hstep
    exact .fwrite hpc
  | seekStart =>
    rw [hpc] at hstep
    cases hstep
    exact .seekStart hpc
  | feof =>
    rw [hpc] at hstep
    cases heof : p.file.eof with
    | true =>
      rw [heof] at hstep
      cases hstep
      exact .atEnd hpc heof
    | false =>
      rw [heof] at hstep
      cases hstep
      exact .notAtEnd hpc heof
  | fread =>
    rw [hpc] at hstep
    cases hstep
    exact .fread hpc
  | send =>
    rw [hpc] at hstep
    obtain ⟨hready, hq⟩ := Option.ite_none_right_eq_some.mp hstep
    cases hq
    exact .send hpc hready
  | unlock =>
    rw [hpc] at hstep
    cases hstep
    exact .unlock hpc
  | done =>
    rw [hpc] at hstep
    cases hstep

/-- A step touches the variables of one thread only. -/
theorem step_others {p q : Pool} {a : Input} (hstep : p.step a = some q) {j : ℕ}
    (hj : j ≠ a.task) : q.threads j = p.threads j := by
  cases moves_of_step hstep with
  | failed => rfl
  | _ => exact Function.update_of_ne hj ..

/-- Only `fwrite` adds to the log, and only `recv` adds to what a thread has received. -/
theorem step_log {p q : Pool} {a : Input} (hstep : p.step a = some q) :
    (q.log = p.log ∧ ((p.threads a.task).pc = .recv ∨
        (q.threads a.task).received = (p.threads a.task).received)) ∨
      ((p.threads a.task).pc = .fwrite ∧
        q.log = p.log ++ [(a.task, (p.threads a.task).written a.unwritten)] ∧
        (q.threads a.task).received = (p.threads a.task).received) := by
  cases moves_of_step hstep with
  | failed hpc => exact Or.inl ⟨rfl, Or.inl hpc⟩
  | received hpc piece => exact Or.inl ⟨rfl, Or.inl hpc⟩
  | fwrite hpc => exact Or.inr ⟨hpc, rfl, by simp [set, Thread.goto, Thread.write]⟩
  | _ =>
    refine Or.inl ⟨rfl, Or.inr ?_⟩
    simp only [set, Function.update_self]
    rfl

end Pool

namespace Thread

/-- The end of the loop body is the end of the loop or the next `recv`. -/
theorem endTurn_pc (t : Thread) (stale : ℕ → UInt8) :
    (t.endTurn stale).pc = .done ∨ (t.endTurn stale).pc = .recv := by
  simp only [endTurn]
  split
  · exact Or.inl rfl
  · exact Or.inr rfl

theorem endTurn_done (t : Thread) (stale : ℕ → UInt8) (h : t.vars.isCompleted = true) :
    (t.endTurn stale).pc = .done := by
  have hdone : ((t.vars.noMore t.readBytes).grow stale).isCompleted = true := by
    rw [grow_isCompleted, noMore, h, Bool.true_or]
  simp only [endTurn, hdone, if_true]

theorem endTurn_vars (t : Thread) (stale : ℕ → UInt8) :
    (t.endTurn stale).vars.stored = t.vars.stored ∧ (t.endTurn stale).vars.sent = t.vars.sent := by
  simp only [endTurn, grow_stored, grow_sent]
  exact ⟨rfl, rfl⟩

/-- Receiving leads to the mutex, to the end, or back to `recv`; nothing is stored or sent. -/
theorem receive_effect (t : Thread) (piece : Piece) (outside : UInt8) (stale : ℕ → UInt8) :
    ((t.receive piece outside stale).pc = .lock ∨ (t.receive piece outside stale).pc = .done ∨
        (t.receive piece outside stale).pc = .recv) ∧
      (t.receive piece outside stale).vars.stored = t.vars.stored ∧
      (t.receive piece outside stale).vars.sent = t.vars.sent := by
  simp only [receive]
  split
  · exact ⟨Or.inl rfl, rfl, rfl⟩
  · exact ⟨Or.inr (endTurn_pc _ stale), endTurn_vars _ stale⟩

theorem receive_inside (t : Thread) (piece : Piece) (outside : UInt8) (stale : ℕ → UInt8) :
    (t.receive piece outside stale).pc.inside = false := by
  obtain ⟨hpc | hpc | hpc, _⟩ := t.receive_effect piece outside stale
  · rw [hpc]
    rfl
  · rw [hpc]
    rfl
  · rw [hpc]
    rfl

theorem receive_received (t : Thread) (piece : Piece) (outside : UInt8) (stale : ℕ → UInt8) :
    (t.receive piece outside stale).received = t.received ++ piece.bytes := by
  simp only [receive]
  split
  · rfl
  · rfl

end Thread

end Aesd.ThreadFunc
