import Aesd.ReceiveLoop

/-!
The buffer and the writes of the receive loop, for any sequence of `recv` results. The
newline is searched in all 1024 bytes, whatever was received; this is right because every
way back to `recv` leaves the buffer zeroed. What the loop writes are the pieces as they
came, up to the one that ends it.
-/
namespace Aesd.Server

open Driver

/-- The data that `recv` has returned. -/
def Recv.piece : Recv → Option Chunk
  | .data chunk => some chunk
  | _ => none

/-- The pieces among the first `n` results. -/
def pieces (results : ℕ → Recv) (n : ℕ) : List Chunk :=
  (List.range n).filterMap (fun i => (results i).piece)

namespace Handler

/-- What the turn passes to `write`, if it writes. -/
def passed (h : Handler) (r : Recv) : List UInt8 :=
  match (h.resume (.recv r)).call with
  | some (.write buf) => buf.bytes
  | _ => []

/-- In all three branches on data the buffer starts with what was received. -/
theorem receive_buffer (h : Handler) (chunk : Chunk) :
    (h.receive chunk).buffer = h.buffer.receive chunk := by
  unfold receive
  simp only
  split
  · rfl
  · split <;> rfl

theorem passed_of_flag (closed error : Bool) (h : (error || closed) = true) (chunk : Chunk) :
    (waiting closed error).passed (.data chunk) = [] := by
  have hreceive : ((waiting closed error).resume (.recv (.data chunk))).pc = .closeOnError := by
    simp only [waiting, resume, receive, h, if_true]
  rw [passed, call, hreceive]

theorem passed_request (chunk : Chunk) (seekto : Seekto)
    (hseek : (Buffer.zeros.receive chunk).seekto = some seekto) :
    (waiting false false).passed (.data chunk) = [] := by
  rw [passed, receive_ioctl chunk seekto hseek]
  rfl

theorem passed_written (chunk : Chunk) (hseek : (Buffer.zeros.receive chunk).seekto = none) :
    (waiting false false).passed (.data chunk) = chunk.bytes := by
  rw [passed, receive_write chunk hseek]
  exact Buffer.front_receive Buffer.zeros chunk

end Handler

/-- What the loop has passed to `write` after `n` results of `recv`. -/
def passed (results : ℕ → Recv) : ℕ → List UInt8
  | 0 => []
  | n + 1 =>
      if (turns results n).pc = .recv then
        passed results n ++ (turns results n).passed (results n)
      else passed results n

/-- How the turn on result `n` leaves the loop, where it goes on and what it passes to
`write`: a piece with a newline is written, one with a seek request and one behind an end
of stream or an error are not. -/
inductive Exit (results : ℕ → Recv) (n : ℕ) (chunk : Chunk) : Pc → List UInt8 → Prop
  | newline (hmem : newline ∈ chunk.bytes) : Exit results n chunk .lseek chunk.bytes
  | request (seekto : Seekto) (hseek : (Buffer.zeros.receive chunk).seekto = some seekto) :
      Exit results n chunk (.ioctl seekto) []
  | early (hflag : ∃ i < n, (results i).isData = false) : Exit results n chunk .closeOnError []

/-- The state of the loop before its turn on result `n`. -/
structure LoopExact (results : ℕ → Recv) (n : ℕ) : Prop where
  zeroed : (turns results n).buffer = .zeros
  received : ∀ chunk, results n = .data chunk →
    ((turns results n).resume (.recv (.data chunk))).buffer.bytes =
      chunk.bytes ++ List.replicate (1024 - chunk.bytes.length) 0
  found_iff : ∀ chunk, results n = .data chunk →
    (newline ∈ ((turns results n).resume (.recv (.data chunk))).buffer.bytes ↔
      newline ∈ chunk.bytes)
  passed_eq : passed results n = joined (pieces results n)
  no_newline : newline ∉ passed results n

theorem pieces_succ (results : ℕ → Recv) (n : ℕ) :
    pieces results (n + 1) = pieces results n ++ (results n).piece.toList := by
  rw [pieces, List.range_succ, List.filterMap_append]
  congr 1

/-- A turn either leaves the handler in the loop, with the piece written, or leaves it. -/
theorem turn_cases (results : ℕ → Recv) (n : ℕ) (hpc : (turns results n).pc = .recv) :
    ((turns results (n + 1)).pc = .recv ∧
      (turns results n).passed (results n) = joined (results n).piece.toList ∧
      newline ∉ joined (results n).piece.toList) ∨
      ∃ chunk, results n = .data chunk ∧ Exit results n chunk (turns results (n + 1)).pc
        ((turns results n).passed (results n)) := by
  obtain ⟨closed, error, heq, hflag, _⟩ := turns_waiting results n hpc
  have hnext : turns results (n + 1) = (turns results n).turn (results n) := by
    rw [turns, if_pos hpc]
  rw [hnext, heq]
  cases hr : results n with
  | closed => exact Or.inl ⟨rfl, rfl, List.not_mem_nil⟩
  | error => exact Or.inl ⟨rfl, rfl, List.not_mem_nil⟩
  | data chunk =>
    by_cases hset : (error || closed) = true
    · refine Or.inr ⟨chunk, rfl, ?_⟩
      rw [Handler.turn_data_of_flag closed error hset, Handler.passed_of_flag closed error hset]
      exact .early (hflag.mp hset)
    · obtain ⟨rfl, rfl⟩ : error = false ∧ closed = false := by simpa using hset
      cases hseek : (Buffer.zeros.receive chunk).seekto with
      | some seekto =>
        refine Or.inr ⟨chunk, rfl, ?_⟩
        rw [Handler.passed_request chunk seekto hseek]
        simp only [Handler.turn, Handler.receive_ioctl chunk seekto hseek]
        exact .request seekto hseek
      | none =>
        rw [Handler.passed_written chunk hseek, Handler.turn_written chunk hseek]
        by_cases hmem : newline ∈ chunk.bytes
        · rw [if_pos hmem]
          exact Or.inr ⟨chunk, rfl, .newline hmem⟩
        · rw [if_neg hmem]
          have hone : joined (Recv.data chunk).piece.toList = chunk.bytes :=
            List.flatMap_singleton ..
          exact Or.inl ⟨rfl, hone.symm, hone.symm ▸ hmem⟩

/-- Out of the loop nothing more is passed to `write`. -/
theorem passed_of_left (results : ℕ → Recv) (n m : ℕ) (hle : n ≤ m)
    (hpc : (turns results n).pc ≠ .recv) :
    (turns results m).pc ≠ .recv ∧ passed results m = passed results n := by
  induction m, hle using Nat.le_induction with
  | base => exact ⟨hpc, rfl⟩
  | succ m _ ih =>
    rw [turns, passed, if_neg ih.1, if_neg ih.1]
    exact ih

/-- As long as the loop goes on, all pieces have been written and none had a newline. -/
theorem passed_eq_joined (results : ℕ → Recv) (n : ℕ) (hpc : (turns results n).pc = .recv) :
    passed results n = joined (pieces results n) ∧ newline ∉ passed results n := by
  induction n with
  | zero => exact ⟨rfl, List.not_mem_nil⟩
  | succ n ih =>
    have hbefore : (turns results n).pc = .recv := by
      by_contra hleft
      exact (passed_of_left results n (n + 1) (Nat.le_succ n) hleft).1 hpc
    obtain ⟨heq, hnot⟩ := ih hbefore
    rcases turn_cases results n hbefore with ⟨_, hpassed, hno⟩ | ⟨chunk, _, hexit⟩
    · rw [passed, if_pos hbefore, hpassed, pieces_succ, joined_append, heq]
      rw [heq] at hnot
      refine ⟨rfl, ?_⟩
      rw [List.mem_append, not_or]
      exact ⟨hnot, hno⟩
    · rw [hpc] at hexit
      cases hexit

/-- For every sequence of results: before each `recv` the buffer is zero and all pieces
received so far have been written; a turn that leaves the loop is the last one that
writes. -/
theorem receive_loop_exact (results : ℕ → Recv) (n : ℕ) (hpc : (turns results n).pc = .recv) :
    LoopExact results n ∧
      ((turns results (n + 1)).pc ≠ .recv → ∃ chunk last, results n = .data chunk ∧
        Exit results n chunk (turns results (n + 1)).pc last ∧
        ∀ m, n < m → passed results m = joined (pieces results n) ++ last) := by
  obtain ⟨closed, error, heq, _, _⟩ := turns_waiting results n hpc
  obtain ⟨hpassed, hnot⟩ := passed_eq_joined results n hpc
  have hzero : (turns results n).buffer = .zeros := by rw [heq]; rfl
  have hbuffer : ∀ chunk, ((turns results n).resume (.recv (.data chunk))).buffer =
      Buffer.zeros.receive chunk := by
    intro chunk
    have hresume : (turns results n).resume (.recv (.data chunk)) =
        (turns results n).receive chunk := by rw [heq]; rfl
    rw [hresume, Handler.receive_buffer, hzero]
  refine ⟨⟨hzero, ?_, ?_, hpassed, hnot⟩, ?_⟩
  · intro chunk _
    rw [hbuffer, Buffer.receive_zeros]
  · intro chunk _
    rw [hbuffer, Buffer.newline_mem_receive]
  · intro hleft
    rcases turn_cases results n hpc with ⟨hstays, _⟩ | ⟨chunk, hr, hexit⟩
    · exact absurd hstays hleft
    · refine ⟨chunk, _, hr, hexit, ?_⟩
      intro m hm
      rw [(passed_of_left results (n + 1) m hm hleft).2, passed, if_pos hpc, hpassed]

/-- An error, nothing, and then a line: the third result ends the loop without a write. -/
theorem receive_loop_after_error :
    ∃ results : ℕ → Recv, (results 0).isData = false ∧
      LoopExact results 2 ∧ (turns results 3).pc = .closeOnError ∧ passed results 9 = [] := by
  have hpc : (turns (fun n => if n = 0 then .error else if n = 1 then .closed
      else .data ⟨[97, 10], by decide, by decide⟩) 2).pc = .recv := rfl
  have hthree : (turns (fun n => if n = 0 then .error else if n = 1 then .closed
      else .data ⟨[97, 10], by decide, by decide⟩) 3).pc = .closeOnError := rfl
  obtain ⟨hexact, hexit⟩ := receive_loop_exact _ 2 hpc
  obtain ⟨chunk, last, _, hlast, hall⟩ := hexit (by rw [hthree]; simp)
  rw [hthree] at hlast
  cases hlast
  refine ⟨_, rfl, hexact, hthree, ?_⟩
  rw [hall 9 (by decide)]
  rfl

end Aesd.Server
