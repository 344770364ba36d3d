import Aesd.Driver

/-!
The receive loop of `threadfunc` in aesd_thread.c. The buffer starts with 100 bytes and is
doubled, at most once in a turn, after the data has been received. Each turn records the
bytes of the buffer that `recv`, `buffer[totalLen - 1]`, `fwrite`, `memset` and `fread`
are about; what the `%s` of `syslog` reads is not among them. Here the file takes all that
is written and gives all that it has.
-/
namespace Aesd.ThreadFunc

open Driver

/-- `INIT_BUFFER_SIZE` -/
def initBufferSize : ℤ := 100

/-- What one `recv` of 100 bytes can return, the end of the stream included. -/
structure Piece where
  bytes : List UInt8
  le : bytes.length ≤ 100

/-- The local variables of the loop, the bytes it has put into the file and those it has
sent. The allocation is the list `buffer`. -/
structure Receiver where
  buffer : List UInt8
  currentMaxSize : ℤ
  totalLen : ℤ
  isCompleted : Bool
  stored : List UInt8
  sent : List UInt8

/-- What the environment does in one turn: the result of `recv`, or `none` for an error;
the byte found outside the buffer; the file when the mutex is granted; and what `realloc`
leaves in the new part of the buffer. -/
structure Answer where
  received : Option Piece
  outside : UInt8
  file : List UInt8
  stale : ℕ → UInt8

/-- An access to `count` bytes from index `first` on, in an allocation of `size` bytes. -/
structure Access where
  first : ℤ
  count : ℤ
  size : ℤ

def Access.Inside (a : Access) : Prop := 0 ≤ a.first ∧ a.first + a.count ≤ a.size

/-- The reads that send the file back, until one comes to the end of the file: the buffer,
the bytes sent and the result of the last `fread`. -/
def sendLoop (size : ℕ) : ℕ → List UInt8 → List UInt8 → List UInt8 × List UInt8 × ℕ
  | 0, buffer, _ => (buffer, [], 0)
  | fuel + 1, buffer, rest =>
      let data := rest.take size
      let filled := data ++ buffer.drop data.length
      if rest.length < size then (filled, data, data.length)
      else
        let next := sendLoop size fuel filled (rest.drop size)
        (next.1, data ++ next.2.1, next.2.2)

namespace Receiver

/-- Before the loop: `malloc` and `memset`. -/
def start : Receiver where
  buffer := List.replicate initBufferSize.toNat 0
  currentMaxSize := initBufferSize
  totalLen := 0
  isCompleted := false
  stored := []
  sent := []

def access (t : Receiver) (first count : ℤ) : Access := ⟨first, count, t.buffer.length⟩

/-- `recv(clientFd, &buffer[totalLen], ...)` and the new `totalLen`. -/
def receive (t : Receiver) (piece : Piece) : Receiver :=
  { t with
    buffer := t.buffer.take t.totalLen.toNat ++ piece.bytes ++
      t.buffer.drop (t.totalLen.toNat + piece.bytes.length)
    totalLen := int32 (t.totalLen + piece.bytes.length) }

/-- `buffer[totalLen - 1]` -/
def lastByte (t : Receiver) (outside : UInt8) : UInt8 :=
  if 0 ≤ t.totalLen - 1 then (t.buffer[(t.totalLen - 1).toNat]?).getD outside else outside

/-- The first `totalLen` bytes of the buffer. -/
def package (t : Receiver) : List UInt8 := t.buffer.take t.totalLen.toNat

/-- The full package goes into the file, and the file goes to the client. -/
def exchange (t : Receiver) (file : List UInt8) : Receiver × ℕ :=
  let size := t.currentMaxSize.toNat
  let cleared := List.replicate size 0 ++ t.buffer.drop size
  let out := sendLoop size ((file ++ t.package).length + 1) cleared (file ++ t.package)
  ({ t with
     buffer := out.1
     totalLen := 0
     isCompleted := true
     stored := t.stored ++ t.package
     sent := t.sent ++ out.2.1 }, out.2.2)

/-- The accesses of `fwrite`, `memset` and `fread`; `send` reads what `fread` has stored. -/
def exchangeAccesses (t : Receiver) : List Access :=
  [t.access 0 t.totalLen, t.access 0 t.currentMaxSize, t.access 0 t.currentMaxSize]

/-- `if (readBytes == 0)`: no more reading from the client. -/
def noMore (t : Receiver) (readBytes : ℕ) : Receiver :=
  { t with isCompleted := t.isCompleted || decide (readBytes = 0) }

/-- The end of the loop body: room for the next 100 bytes, if there is not enough. -/
def grow (t : Receiver) (stale : ℕ → UInt8) : Receiver :=
  if t.totalLen + initBufferSize > t.currentMaxSize then
    let size := int32 (t.currentMaxSize * 2)
    { t with buffer := Heap.resize t.buffer size.toNat stale, currentMaxSize := size }
  else t

/-- The branch on a newline, and the value of `readBytes` after it. -/
def answered (t : Receiver) (readBytes : ℕ) (a : Answer) : Receiver × ℕ :=
  if t.lastByte a.outside = newline then t.exchange a.file else (t, readBytes)

/-- One turn of the loop. A negative result goes back to the loop condition at once. -/
def turn (t : Receiver) (a : Answer) : Receiver :=
  match a.received with
  | none => t
  | some piece =>
      let after := (t.receive piece).answered piece.bytes.length a
      (after.1.noMore after.2).grow a.stale

/-- The accesses of one turn: the bytes offered to `recv`, `buffer[totalLen - 1]`, and those
of the branch on a newline. -/
def accesses (t : Receiver) (a : Answer) : List Access :=
  match a.received with
  | none => [t.access t.totalLen initBufferSize]
  | some piece =>
      let r := t.receive piece
      t.access t.totalLen initBufferSize :: r.access (r.totalLen - 1) 1 ::
        if r.lastByte a.outside = newline then r.exchangeAccesses else []

/-- The loop runs until `isCompleted`. -/
def step (t : Receiver) (a : Answer) : Option Receiver :=
  if t.isCompleted then none else some (t.turn a)

end Receiver

/-- The number of bytes that an answer brings. -/
def Answer.size (a : Answer) : ℕ := (a.received.map (fun piece => piece.bytes.length)).getD 0

/-- Where the loop makes another turn, there are 100 bytes of room in the allocation, whose
size is `currentMaxSize`, and all accesses of the turn are inside it. -/
def InBounds (t : Receiver) (a : Answer) : Prop :=
  t.isCompleted = false →
    (t.buffer.length = t.currentMaxSize ∧ t.totalLen + initBufferSize ≤ t.currentMaxSize) ∧
      ∀ access ∈ t.accesses a, access.Inside

instance (a : Access) : Decidable a.Inside :=
  inferInstanceAs (Decidable (0 ≤ a.first ∧ a.first + a.count ≤ a.size))

/-- No read of the file changes the length of the buffer. -/
theorem length_sendLoop (size fuel : ℕ) (buffer rest : List UInt8) (h : size ≤ buffer.length) :
    (sendLoop size fuel buffer rest).1.length = buffer.length := by
  induction fuel generalizing buffer rest with
  | zero => rfl
  | succ fuel ih =>
    have hfilled : (rest.take size ++ buffer.drop (rest.take size).length).length =
        buffer.length := by
      rw [List.length_append, List.length_drop, List.length_take]
      omega
    simp only [sendLoop]
    split
    · exact hfilled
    · rw [ih _ _ (by rw [hfilled]; exact h), hfilled]

/-- The whole file is sent. -/
theorem sendLoop_sent (size fuel : ℕ) (buffer rest : List UInt8) (hsize : 0 < size)
    (hfuel : rest.length < fuel) : (sendLoop size fuel buffer rest).2.1 = rest := by
  induction fuel generalizing buffer rest with
  | zero => omega
  | succ fuel ih =>
    simp only [sendLoop]
    split
    · rename_i hlast
      exact List.take_of_length_le hlast.le
    · rename_i hmore
      have hdrop : (rest.drop size).length < fuel := by
        rw [List.length_drop]
        omega
      rw [ih _ _ hdrop, List.take_append_drop]

end Aesd.ThreadFunc
