import Aesd.PacketReceive

/-!
The receive loop against any sequence of `recv` results. A handler that is still in
the loop has a zeroed buffer, and its two flags say whether an end of stream or an
error has been seen. Only later data makes the loop look at the flags, and only the
zeros behind a short piece end the string that is searched.
-/
namespace Aesd.Server

open Driver

/-- The piece holds neither a newline nor a seek request. -/
def Chunk.Plain (chunk : Chunk) : Prop :=
  newline ∉ chunk.bytes ∧ (Buffer.zeros.receive chunk).seekto = none

/-- Of a line only the last piece holds a newline. -/
theorem plain_of_isLine {before rest : List Chunk} {chunk : Chunk}
    (hline : IsLine (joined (before ++ chunk :: rest)))
    (hseek : ∀ c ∈ before, (Buffer.zeros.receive c).seekto = none) :
    ∀ c ∈ before, c.Plain := by
  intro c hc
  refine ⟨?_, hseek c hc⟩
  intro hmem
  rw [joined_append, joined_cons] at hline
  apply hline.newline_notMem
  · exact List.append_ne_nil_of_left_ne_nil chunk.ne_nil _
  · exact List.mem_flatMap.mpr ⟨c, hc, hmem⟩

namespace Handler

/-- A handler in the loop whose flags are `closed` and `error`. -/
def waiting (closed error : Bool) : Handler := ⟨.recv, .zeros, closed, error, false⟩

/-- The handler at its first `recv`. -/
theorem start_waiting (result : Result) :
    ((Handler.start.resume .ok).resume .ok).resume result = waiting false false := rfl

/-- One turn of the loop: the result of `recv` and, in the branch that writes, the
rest of the body. What `write` returns is not looked at. -/
def turn (h : Handler) (r : Recv) : Handler :=
  match (h.resume (.recv r)).pc with
  | .write _ => (h.resume (.recv r)).resume .ok
  | _ => h.resume (.recv r)

/-- The buffer that a turn hands to `strstr`. -/
def searched (h : Handler) : Recv → Option Buffer
  | .data chunk =>
      if h.receivedError || h.connectionClosed then none else some (h.buffer.receive chunk)
  | _ => none

theorem receive_of_searched (h : Handler) (chunk : Chunk) (buffer : Buffer)
    (hsearched : h.searched (.data chunk) = some buffer) :
    h.receive chunk = match buffer.seekto with
      | some seekto => { h with buffer := buffer, needToReopen := false, pc := .ioctl seekto }
      | none => { h with buffer := buffer, pc := .write chunk.bytes.length } := by
  simp only [searched] at hsearched
  unfold receive
  split at hsearched
  · cases hsearched
  · rename_i hclear
    cases Option.some.inj hsearched
    cases hseek : (h.buffer.receive chunk).seekto with
    | none => simp only [hclear, Bool.false_eq_true, if_false, hseek]
    | some seekto => simp only [hclear, Bool.false_eq_true, if_false, hseek]

/-- A piece that holds no request is going to be written. -/
theorem receive_write (chunk : Chunk) (hseek : (Buffer.zeros.receive chunk).seekto = none) :
    (waiting false false).resume (.recv (.data chunk)) =
      ⟨.write chunk.bytes.length, Buffer.zeros.receive chunk, false, false, false⟩ := by
  change (waiting false false).receive chunk = _
  rw [receive_of_searched _ chunk _ rfl]
  simp only [waiting, hseek]

/-- A piece that holds a request is not written. -/
theorem receive_ioctl (chunk : Chunk) (seekto : Seekto)
    (hseek : (Buffer.zeros.receive chunk).seekto = some seekto) :
    (waiting false false).resume (.recv (.data chunk)) =
      ⟨.ioctl seekto, Buffer.zeros.receive chunk, false, false, false⟩ := by
  change (waiting false false).receive chunk = _
  rw [receive_of_searched _ chunk _ rfl]
  simp only [waiting, hseek]

theorem turn_closed (closed error : Bool) :
    (waiting closed error).turn .closed = waiting true error := rfl

theorem turn_error (closed error : Bool) :
    (waiting closed error).turn .error = waiting closed true := rfl

/-- Data after an end of stream or an error ends the loop. -/
theorem turn_data_of_flag (closed error : Bool) (h : (error || closed) = true) (chunk : Chunk) :
    ((waiting closed error).turn (.data chunk)).pc = .closeOnError := by
  have hreceive : ((waiting closed error).resume (.recv (.data chunk))).pc = .closeOnError := by
    simp only [waiting, resume, receive, h, if_true]
  simp only [turn, hreceive]

/-- Data on a good connection that holds no request is written. With a newline in it
the loop ends, otherwise the buffer is zeroed again. -/
theorem turn_written (chunk : Chunk) (hseek : (Buffer.zeros.receive chunk).seekto = none) :
    (waiting false false).turn (.data chunk) =
      if newline ∈ chunk.bytes then ⟨.lseek, Buffer.zeros.receive chunk, false, false, true⟩
      else waiting false false := by
  unfold turn
  rw [receive_write chunk hseek]
  change afterWrite _ = _
  simp only [afterWrite, Buffer.newline_mem_receive]
  rfl

theorem turn_plain (chunk : Chunk) (h : chunk.Plain) :
    (waiting false false).turn (.data chunk) = waiting false false := by
  rw [turn_written chunk h.2, if_neg h.1]

theorem plain_of_turn (chunk : Chunk)
    (hpc : ((waiting false false).turn (.data chunk)).pc = .recv) : chunk.Plain := by
  cases hseek : (Buffer.zeros.receive chunk).seekto with
  | some seekto =>
    simp only [turn, receive_ioctl chunk seekto hseek] at hpc
    cases hpc
  | none =>
    refine ⟨?_, hseek⟩
    intro hmem
    rw [turn_written chunk hseek, if_pos hmem] at hpc
    cases hpc

end Handler

/-- The handler after `n` results of `recv`; out of the loop it makes no more turns. -/
def turns (results : ℕ → Recv) : ℕ → Handler
  | 0 => .waiting false false
  | n + 1 =>
      if (turns results n).pc = .recv then (turns results n).turn (results n)
      else turns results n

/-- The handler is out of the loop after finitely many calls of `recv`. -/
def LeavesLoop (results : ℕ → Recv) : Prop := ∃ n, (turns results n).pc ≠ .recv

/-- In the loop the buffer is zeroed, and the flags say whether a result other than
data has been seen. -/
theorem turns_waiting (results : ℕ → Recv) (n : ℕ) (hpc : (turns results n).pc = .recv) :
    ∃ closed error, turns results n = .waiting closed error ∧
      ((error || closed) = true ↔ ∃ i < n, (results i).isData = false) ∧
      ((error || closed) = false → ∀ i < n, ∃ chunk, results i = .data chunk ∧ chunk.Plain) := by
  induction n with
  | zero => exact ⟨false, false, rfl, by simp, by simp⟩
  | succ n ih =>
    have hbefore : (turns results n).pc = .recv := by
      by_contra hleft
      rw [turns, if_neg hleft] at hpc
      exact hleft hpc
    obtain ⟨closed, error, heq, hflag, hplain⟩ := ih hbefore
    have hnext : turns results (n + 1) = (Handler.waiting closed error).turn (results n) := by
      rw [turns, if_pos hbefore, heq]
    rw [hnext] at hpc ⊢
    cases hr : results n with
    | closed =>
      refine ⟨true, error, Handler.turn_closed closed error, ?_, by simp⟩
      simp only [Bool.or_true, true_iff]
      exact ⟨n, Nat.lt_succ_self n, by rw [hr]; rfl⟩
    | error =>
      refine ⟨closed, true, Handler.turn_error closed error, ?_, by simp⟩
      simp only [Bool.true_or, true_iff]
      exact ⟨n, Nat.lt_succ_self n, by rw [hr]; rfl⟩
    | data chunk =>
      rw [hr] at hpc
      by_cases hset : (error || closed) = true
      · rw [Handler.turn_data_of_flag closed error hset chunk] at hpc
        cases hpc
      · obtain ⟨rfl, rfl⟩ : error = false ∧ closed = false := by simpa using hset
        have hchunk := Handler.plain_of_turn chunk hpc
        have hall : ∀ i < n + 1, ∃ chunk, results i = .data chunk ∧ chunk.Plain := by
          intro i hi
          rcases Nat.lt_succ_iff_lt_or_eq.mp hi with hlt | rfl
          · exact hplain rfl i hlt
          · exact ⟨chunk, hr, hchunk⟩
        refine ⟨false, false, Handler.turn_plain chunk hchunk, ?_, fun _ => hall⟩
        simp only [Bool.or_self, Bool.false_eq_true, false_iff, not_exists, not_and]
        intro i hi hdata
        obtain ⟨d, hd, _⟩ := hall i hi
        rw [hd] at hdata
        cases hdata

/-- As long as only plain pieces have come, the handler waits with clear flags. -/
theorem turns_of_plain (results : ℕ → Recv) (n : ℕ)
    (h : ∀ i < n, ∃ chunk, results i = .data chunk ∧ chunk.Plain) :
    turns results n = .waiting false false := by
  induction n with
  | zero => rfl
  | succ n ih =>
    have hbefore := ih (fun i hi => h i (Nat.lt_succ_of_lt hi))
    obtain ⟨chunk, hr, hplain⟩ := h n (Nat.lt_succ_self n)
    rw [turns, if_pos (by rw [hbefore]; rfl), hbefore, hr, Handler.turn_plain chunk hplain]

/-- On a connection without newline and seek text the loop is left if and only if
data comes after an end of stream or an error. -/
theorem leavesLoop_iff (results : ℕ → Recv)
    (htext : ∀ n chunk, results n = .data chunk →
      newline ∉ chunk.bytes ∧ ¬ pattern <:+: chunk.bytes) :
    LeavesLoop results ↔
      ∃ i j, i < j ∧ (results i).isData = false ∧ (results j).isData = true := by
  constructor
  · intro hleaves
    by_contra hnone
    have hstays : ∀ n, (turns results n).pc = .recv := by
      intro n
      induction n with
      | zero => rfl
      | succ n ih =>
        obtain ⟨closed, error, heq, hflag, _⟩ := turns_waiting results n ih
        rw [turns, if_pos ih, heq]
        cases hr : results n with
        | closed => rw [Handler.turn_closed]; rfl
        | error => rw [Handler.turn_error]; rfl
        | data chunk =>
          have hclear : ¬ (error || closed) = true := by
            intro hset
            obtain ⟨i, hi, hdata⟩ := hflag.mp hset
            exact hnone ⟨i, n, hi, hdata, by rw [hr]; rfl⟩
          obtain ⟨rfl, rfl⟩ : error = false ∧ closed = false := by simpa using hclear
          obtain ⟨hnewline, hpattern⟩ := htext n chunk hr
          rw [Handler.turn_plain chunk ⟨hnewline,
            Buffer.seekto_eq_none chunk chunk.bytes List.infix_rfl hpattern⟩]
          rfl
    obtain ⟨n, hn⟩ := hleaves
    exact hn (hstays n)
  · intro hpair
    obtain ⟨i, j, hij, hi, hj⟩ := hpair
    by_contra hstays
    have hloop : ∀ n, (turns results n).pc = .recv := by
      intro n
      by_contra hleft
      exact hstays ⟨n, hleft⟩
    obtain ⟨closed, error, heq, hflag, _⟩ := turns_waiting results j (hloop j)
    cases hr : results j with
    | closed => simp [hr, Recv.isData] at hj
    | error => simp [hr, Recv.isData] at hj
    | data chunk =>
      have hnext := hloop (j + 1)
      rw [turns, if_pos (hloop j), heq, hr,
        Handler.turn_data_of_flag closed error (hflag.mpr ⟨i, hij, hi⟩) chunk] at hnext
      cases hnext

/-- An end of stream, one more piece, and then errors only: the piece ends the loop. -/
theorem leavesLoop_data_after_close :
    LeavesLoop (fun n => if n = 0 then .closed
      else if n = 1 then .data ⟨[97], by decide, by decide⟩ else .error) := by
  refine (leavesLoop_iff _ ?_).mpr ⟨0, 1, by decide, rfl, rfl⟩
  intro n chunk hchunk
  split at hchunk
  · cases hchunk
  · split at hchunk
    · cases hchunk
      exact ⟨by decide, by decide⟩
    · cases hchunk

/-- The peer has closed the connection: `recv` returns 0 again and again, and the
handler never leaves its loop. -/
theorem never_leaves_after_close :
    ∃ results : ℕ → Recv, (∀ n chunk, results n = .data chunk →
        newline ∉ chunk.bytes ∧ ¬ pattern <:+: chunk.bytes) ∧
      (∃ start, ∀ n, start ≤ n → results n = .closed) ∧ ¬ LeavesLoop results := by
  refine ⟨fun _ => .closed, by simp, ⟨0, fun _ _ => rfl⟩, ?_⟩
  intro hleaves
  obtain ⟨n, hn⟩ := hleaves
  apply hn
  clear hn
  induction n with
  | zero => rfl
  | succ n ih =>
    obtain ⟨closed, error, heq, _⟩ := turns_waiting _ n ih
    rw [turns, if_pos ih, heq, Handler.turn_closed]
    rfl

/-- Every string that the handler searches ends inside the buffer. -/
def SearchesInside (results : ℕ → Recv) : Prop :=
  ∀ n buffer, (turns results n).pc = .recv →
    (turns results n).searched (results n) = some buffer → 0 ∈ buffer.bytes

/-- A received piece is followed by a zero unless it fills the buffer. -/
theorem Buffer.zero_mem_receive (chunk : Chunk) :
    0 ∈ (zeros.receive chunk).bytes ↔ chunk.bytes.length < 1024 ∨ 0 ∈ chunk.bytes := by
  rw [receive_zeros, List.mem_append, List.mem_replicate, or_comm]
  apply or_congr _ Iff.rfl
  have hle := chunk.le
  constructor
  · intro h
    omega
  · intro hlt
    exact ⟨by omega, rfl⟩

/-- The searches stay inside the buffer if and only if no piece that comes while the
handler is still collecting fills the whole buffer without a zero byte. -/
theorem searchesInside_iff (results : ℕ → Recv) :
    SearchesInside results ↔
      ∀ n chunk, results n = .data chunk →
        (∀ i < n, ∃ before, results i = .data before ∧ before.Plain) →
        chunk.bytes.length < 1024 ∨ 0 ∈ chunk.bytes := by
  constructor
  · intro hinside n chunk hr hplain
    have hwaiting := turns_of_plain results n hplain
    rw [← Buffer.zero_mem_receive]
    apply hinside n
    · rw [hwaiting]
      rfl
    · rw [hwaiting, hr]
      rfl
  · intro hfits n buffer hpc hsearched
    obtain ⟨closed, error, heq, _, hplain⟩ := turns_waiting results n hpc
    rw [heq] at hsearched
    cases hr : results n with
    | closed => simp [hr, Handler.searched] at hsearched
    | error => simp [hr, Handler.searched] at hsearched
    | data chunk =>
      simp only [hr, Handler.searched, Handler.waiting] at hsearched
      obtain ⟨hclear, hbuffer⟩ := Option.ite_none_left_eq_some.mp hsearched
      cases Option.some.inj hbuffer
      rw [Buffer.zero_mem_receive]
      exact hfits n chunk hr (hplain (Bool.eq_false_iff.mpr hclear))

/-- Short pieces for ever. -/
theorem searchesInside_short :
    SearchesInside (fun _ => .data ⟨[97, 98], by decide, by decide⟩) := by
  apply (searchesInside_iff _).mpr
  intro n chunk hchunk _
  cases hchunk
  exact Or.inl (by decide)

/-- A piece that fills the buffer with bytes "a". -/
def fullChunk : Chunk where
  bytes := List.replicate 1024 97
  pos := by rw [List.length_replicate]; decide
  le := List.length_replicate.le

/-- Such a piece is searched without a zero byte to end the search. -/
theorem search_leaves_buffer :
    ∃ (results : ℕ → Recv) (buffer : Buffer),
      (turns results 0).searched (results 0) = some buffer ∧ 0 ∉ buffer.bytes ∧
        ¬ SearchesInside results := by
  have hzero : 0 ∉ (Buffer.zeros.receive fullChunk).bytes := by
    rw [Buffer.zero_mem_receive, not_or]
    constructor
    · rw [fullChunk, List.length_replicate]
      decide
    · intro hmem
      exact absurd (List.eq_of_mem_replicate hmem) (by decide)
  refine ⟨fun _ => .data fullChunk, Buffer.zeros.receive fullChunk, rfl, hzero, ?_⟩
  intro hinside
  exact hzero (hinside 0 _ rfl rfl)

end Aesd.Server
