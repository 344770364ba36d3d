import Aesd.ServerState

/-!
One packet on its way through the receive loop. A packet has its only newline at
the end and holds no seek request; whatever the pieces are in which it arrives,
the handler writes exactly these pieces and leaves the loop with the last one.
-/
namespace Aesd.Server

open Driver

structure IsPacket (packet : List UInt8) : Prop where
  last : packet.getLast? = some newline
  once : newline ∉ packet.dropLast
  noSeek : ¬ pattern <:+: packet

/-- A text whose only newline is its last byte. -/
structure IsLine (text : List UInt8) : Prop where
  last : text.getLast? = some newline
  once : newline ∉ text.dropLast

/-- The bytes of a sequence of pieces. -/
def joined (chunks : List Chunk) : List UInt8 := chunks.flatMap Chunk.bytes

theorem joined_cons (chunk : Chunk) (rest : List Chunk) :
    joined (chunk :: rest) = chunk.bytes ++ joined rest := List.flatMap_cons ..

theorem joined_append (xs ys : List Chunk) : joined (xs ++ ys) = joined xs ++ joined ys :=
  List.flatMap_append

theorem infix_joined {chunk : Chunk} {chunks : List Chunk} (h : chunk ∈ chunks) :
    chunk.bytes <:+: joined chunks := by
  obtain ⟨before, rest, rfl⟩ := List.append_of_mem h
  rw [joined_append, joined_cons]
  exact ⟨joined before, joined rest, List.append_assoc ..⟩

theorem Chunk.ne_nil (chunk : Chunk) : chunk.bytes ≠ [] := List.ne_nil_of_length_pos chunk.pos

namespace IsLine

variable {before chunk rest : List UInt8}

theorem newline_notMem (h : IsLine (before ++ rest)) (hrest : rest ≠ []) : newline ∉ before := by
  intro hmem
  apply h.once
  rw [List.dropLast_append_of_ne_nil hrest]
  exact List.mem_append_left _ hmem

/-- The piece with the newline is the last one, and the newline is its last byte. -/
theorem last_piece (h : IsLine (before ++ chunk ++ rest)) (hmem : newline ∈ chunk) :
    rest = [] ∧ chunk.getLast? = some newline := by
  have hrest : rest = [] := by
    by_contra hne
    exact h.newline_notMem hne (List.mem_append_right _ hmem)
  subst hrest
  refine ⟨rfl, ?_⟩
  have hlast := h.last
  rwa [List.append_nil, List.getLast?_append_of_ne_nil _ (List.ne_nil_of_mem hmem)] at hlast

end IsLine

namespace IsPacket

variable {packet : List UInt8}

theorem isLine (h : IsPacket packet) : IsLine packet := ⟨h.last, h.once⟩

theorem newline_mem (h : IsPacket packet) : newline ∈ packet := List.mem_of_getLast? h.last

end IsPacket

namespace Buffer

theorem front_receive (buffer : Buffer) (chunk : Chunk) :
    ((buffer.receive chunk).front chunk.bytes.length).bytes = chunk.bytes :=
  List.take_left

theorem receive_zeros (chunk : Chunk) : (zeros.receive chunk).bytes =
    chunk.bytes ++ List.replicate (1024 - chunk.bytes.length) 0 := by
  simp only [receive, zeros, List.drop_replicate]

theorem newline_mem_receive (chunk : Chunk) :
    newline ∈ (zeros.receive chunk).bytes ↔ newline ∈ chunk.bytes := by
  rw [receive_zeros, List.mem_append, or_iff_left]
  intro hmem
  exact absurd (List.eq_of_mem_replicate hmem) (by decide)

/-- A piece of a text without the pattern carries no seek request. -/
theorem seekto_eq_none (chunk : Chunk) (packet : List UInt8) (hpiece : chunk.bytes <:+: packet)
    (hpattern : ¬ pattern <:+: packet) : (zeros.receive chunk).seekto = none := by
  have hnone : CString.strstr pattern (CString.ofBuffer (zeros.receive chunk).bytes) = none := by
    rw [receive_zeros, CString.ofBuffer_append_zeros]
    apply CString.strstr_eq_none
    intro hfound
    exact hpattern (hfound.trans ((CString.ofBuffer_infix _).trans hpiece))
  rw [seekto, hnone, Option.bind_none]

end Buffer

/-- Only the loop itself writes and receives. -/
theorem Handler.pc_of_write (h : Handler) (buf : UserBuf) (hcall : h.call = some (.write buf)) :
    h.pc.isWrite = true := by
  obtain ⟨pc, buffer, closed, error, reopen⟩ := h
  cases pc <;> simp [Handler.call, Pc.isWrite] at hcall ⊢

theorem Handler.pc_of_recv (h : Handler) (hcall : h.call = some .recv) : h.pc = .recv := by
  obtain ⟨pc, buffer, closed, error, reopen⟩ := h
  cases pc <;> simp [Handler.call] at hcall ⊢

/-- How far a handler has come with a packet: `inbox` is still to be received and
`written` has been written. -/
def Progress (packet : List UInt8) (h : Handler) (inbox : List Recv) (written : List UInt8) :
    Prop :=
  ∃ rest : List Chunk, inbox = rest.map .data ∧ h.connectionClosed = false ∧
    h.receivedError = false ∧
    match h.pc with
    | .getpeername | .mallocBuffer => written = [] ∧ packet = joined rest
    | .openFile => h.buffer = .zeros ∧ written = [] ∧ packet = joined rest
    | .recv => h.buffer = .zeros ∧ newline ∉ written ∧ packet = written ++ joined rest
    | .write n => ∃ chunk : Chunk, h.buffer = Buffer.zeros.receive chunk ∧
        n = chunk.bytes.length ∧ newline ∉ written ∧
        packet = written ++ chunk.bytes ++ joined rest
    | .closeSockfd | .closeOnError | .ioctl _ => False
    | _ => written = packet

namespace Progress

variable {packet : List UInt8} {h : Handler} {inbox : List Recv} {written : List UInt8}

theorem start (chunks : List Chunk) (hpacket : joined chunks = packet) :
    Progress packet .start (chunks.map .data) [] :=
  ⟨chunks, rfl, rfl, rfl, rfl, hpacket.symm⟩

theorem written_start (hp : Progress packet .start inbox written) : written = [] := by
  obtain ⟨rest, _, _, _, hwritten, _⟩ := hp
  exact hwritten

/-- The next piece arrives: it will be written. -/
theorem received (hp : Progress packet h inbox written) (hpacket : IsPacket packet)
    (hpc : h.pc = .recv) :
    ∃ chunk rest, inbox = .data chunk :: rest ∧
      (h.resume (.recv (.data chunk))).pc = .write chunk.bytes.length ∧
      (h.resume (.recv (.data chunk))).needToReopen = h.needToReopen ∧
      Progress packet (h.resume (.recv (.data chunk))) rest written := by
  obtain ⟨pc, buffer, closed, error, reopen⟩ := h
  subst hpc
  obtain ⟨rest, rfl, rfl, rfl, rfl, hnot, rfl⟩ := hp
  cases rest with
  | nil =>
    exact absurd hpacket.newline_mem (by simpa [joined] using hnot)
  | cons chunk rest =>
    refine ⟨chunk, rest.map .data, rfl, ?_⟩
    rw [joined_cons] at hpacket ⊢
    have hseek := Buffer.seekto_eq_none chunk _
      ⟨written, joined rest, List.append_assoc ..⟩ hpacket.noSeek
    simp only [Handler.resume, Handler.receive, Bool.or_self, Bool.false_eq_true, if_false,
      hseek]
    exact ⟨trivial, trivial, rest, rfl, rfl, rfl, chunk, rfl, rfl, hnot,
      (List.append_assoc ..).symm⟩

/-- A piece is written: the loop ends with the piece that has the newline. -/
theorem wrote (hp : Progress packet h inbox written) (hpacket : IsPacket packet) (n : ℕ)
    (hpc : h.pc = .write n) (result : Result) :
    newline ∉ written ∧ (h.buffer.front n).bytes ≠ [] ∧
      Progress packet (h.resume result) inbox (written ++ (h.buffer.front n).bytes) ∧
      (written ++ (h.buffer.front n).bytes).length ≤ packet.length ∧
      (newline ∈ (h.buffer.front n).bytes → written ++ (h.buffer.front n).bytes = packet) ∧
      ((h.buffer.front n).bytes.getLast? = some newline ↔
        newline ∈ (h.buffer.front n).bytes) := by
  obtain ⟨pc, buffer, closed, error, reopen⟩ := h
  subst hpc
  obtain ⟨rest, rfl, rfl, rfl, chunk, rfl, rfl, hnot, rfl⟩ := hp
  rw [Buffer.front_receive]
  refine ⟨hnot, chunk.ne_nil, ?_, by simp, ?_, List.mem_of_getLast?,
    fun hmem => (hpacket.isLine.last_piece hmem).2⟩
  · simp only [Handler.resume, Handler.afterWrite, Buffer.newline_mem_receive]
    by_cases hmem : newline ∈ chunk.bytes
    · rw [if_pos hmem]
      refine ⟨rest, rfl, rfl, rfl, ?_⟩
      simp only [(hpacket.isLine.last_piece hmem).1, List.append_nil]
    · rw [if_neg hmem]
      exact ⟨rest, rfl, rfl, rfl, rfl, by simp [hnot, hmem], rfl⟩
  · intro hmem
    rw [(hpacket.isLine.last_piece hmem).1, List.append_nil]

/-- Every other call leaves the packet where it is. -/
theorem other (hp : Progress packet h inbox written) (result : Result) (hrecv : h.pc ≠ .recv)
    (hwrite : ∀ n, h.pc ≠ .write n)
    (hok : h.pc = .getpeername ∨ h.pc = .mallocBuffer → result = .ok) :
    Progress packet (h.resume result) inbox written := by
  obtain ⟨pc, buffer, closed, error, reopen⟩ := h
  obtain ⟨rest, hinbox, hclosed, herror, hstate⟩ := hp
  cases pc with
  | getpeername =>
    cases hok (Or.inl rfl)
    exact ⟨rest, hinbox, hclosed, herror, hstate⟩
  | mallocBuffer =>
    cases hok (Or.inr rfl)
    exact ⟨rest, hinbox, hclosed, herror, rfl, hstate⟩
  | openFile =>
    obtain ⟨hbuffer, rfl, hpacket⟩ := hstate
    exact ⟨rest, hinbox, hclosed, herror, hbuffer, by simp, hpacket⟩
  | recv => exact absurd rfl hrecv
  | write n => exact absurd rfl (hwrite n)
  | closeSockfd => exact hstate.elim
  | closeOnError => exact hstate.elim
  | ioctl seekto => exact hstate.elim
  | mallocWriteBuf =>
    cases reopen <;> cases result <;> exact ⟨rest, hinbox, hclosed, herror, hstate⟩
  | read => cases result <;> exact ⟨rest, hinbox, hclosed, herror, hstate⟩
  | _ => exact ⟨rest, hinbox, hclosed, herror, hstate⟩

/-- A packet without its newline written is not past the receive loop. -/
theorem written_eq (hp : Progress packet h inbox written) (hpacket : IsPacket packet) :
    newline ∈ written ↔ written = packet := by
  constructor
  · intro hmem
    obtain ⟨pc, buffer, closed, error, reopen⟩ := h
    obtain ⟨rest, hinbox, hclosed, herror, hstate⟩ := hp
    cases pc with
    | getpeername => simp [hstate.1] at hmem
    | mallocBuffer => simp [hstate.1] at hmem
    | openFile => simp [hstate.2.1] at hmem
    | recv => exact absurd hmem hstate.2.1
    | write n =>
      obtain ⟨chunk, _, _, hnot, _⟩ := hstate
      exact absurd hmem hnot
    | closeSockfd => exact hstate.elim
    | closeOnError => exact hstate.elim
    | ioctl seekto => exact hstate.elim
    | _ => exact hstate
  · intro heq
    rw [heq]
    exact hpacket.newline_mem

theorem finished (hp : Progress packet h inbox written)
    (hpc : h.pc = .read ∨ h.pc = .returned) : written = packet := by
  obtain ⟨pc, buffer, closed, error, reopen⟩ := h
  obtain ⟨rest, hinbox, hclosed, herror, hstate⟩ := hp
  rcases hpc with hpc | hpc
  · subst hpc
    exact hstate
  · subst hpc
    exact hstate

end Progress

end Aesd.Server
