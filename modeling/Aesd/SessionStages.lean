import Aesd.SessionModel

/-!
The stages of one session: the start, the pieces that are only collected, the piece
with the newline, the piece with a seek request, and the read loop. Each is a run of
the session machine, and the read loop ends for every content of the device.
-/
namespace Aesd.Server.Session

open Driver

variable {inbox rest : List Recv} {log : CommandLog} {fPos : Option ℤ} {pos : ℤ} {locked : Bool}
  {sent : List UInt8} {issued : List Seekto} {chunk : Chunk}

theorem Goes.trans {c d e : Session} (h : c.Goes d) (h' : d.Goes e) : c.Goes e :=
  Relation.ReflTransGen.trans h h'

theorem Goes.cons {c d e : Session} (h : c.next = some d) (h' : d.Goes e) : c.Goes e :=
  Relation.ReflTransGen.head h h'

theorem Goes.refl (c : Session) : c.Goes c := Relation.ReflTransGen.refl

theorem goes_start (inbox : List Recv) (log : CommandLog) (fPos : Option ℤ) (locked : Bool)
    (sent : List UInt8) (issued : List Seekto) :
    Goes ⟨.start, inbox, log, fPos, locked, sent, issued⟩
      ⟨.waiting false false, inbox, log, some 0, locked, sent, issued⟩ := by
  apply Goes.cons rfl
  apply Goes.cons rfl
  apply Goes.cons rfl
  exact .refl _

/-- A piece without a request is written. -/
theorem goes_written (hseek : (Buffer.zeros.receive chunk).seekto = none)
    (hlt : log.pending.length + chunk.bytes.length < 2 ^ 64) :
    Goes ⟨.waiting false false, .data chunk :: rest, log, some pos, locked, sent, issued⟩
      ⟨(Handler.waiting false false).turn (.data chunk), rest, log.append chunk.bytes,
        some chunk.bytes.length, locked, sent, issued⟩ := by
  have hreceive := Handler.receive_write chunk hseek
  have hfront := Buffer.front_receive Buffer.zeros chunk
  have hrecv : next ⟨.waiting false false, .data chunk :: rest, log, some pos, locked, sent,
      issued⟩ = some ⟨⟨.write chunk.bytes.length, Buffer.zeros.receive chunk, false, false, false⟩,
        rest, log, some pos, locked, sent, issued⟩ := by
    rw [← hreceive]
    rfl
  apply Goes.cons hrecv
  apply Goes.cons _ (.refl _)
  rw [Handler.turn, hreceive]
  simp only [next, Handler.call, Option.bind_some, exec, hfront]
  rw [if_pos ⟨chunk.ne_nil, hlt⟩]
  rfl

/-- A piece without a newline is collected. -/
theorem goes_plain (hplain : chunk.Plain) (closed : List (List UInt8)) (pending : List UInt8)
    (hlt : pending.length + chunk.bytes.length < 2 ^ 64) :
    Goes ⟨.waiting false false, .data chunk :: rest, ⟨closed, pending⟩, some pos, locked, sent,
        issued⟩
      ⟨.waiting false false, rest, ⟨closed, pending ++ chunk.bytes⟩, some chunk.bytes.length,
        locked, sent, issued⟩ := by
  rw [← CommandLog.append_of_notMem ⟨closed, pending⟩ hplain.1]
  nth_rewrite 2 [← Handler.turn_plain chunk hplain]
  exact goes_written hplain.2 hlt

/-- After the newline the file is closed and opened again. -/
theorem goes_reopen (buffer : Buffer) :
    Goes ⟨⟨.lseek, buffer, false, false, true⟩, inbox, log, some pos, false, sent, issued⟩
      ⟨⟨.read, buffer, false, false, true⟩, inbox, log, some 0, true, sent, issued⟩ := by
  apply Goes.cons rfl
  apply Goes.cons rfl
  apply Goes.cons rfl
  apply Goes.cons rfl
  apply Goes.cons rfl
  exact .refl _

/-- The piece with the newline is written, and the device is read from its start. -/
theorem goes_line (hseek : (Buffer.zeros.receive chunk).seekto = none)
    (hmem : newline ∈ chunk.bytes)
    (hlt : log.pending.length + chunk.bytes.length < 2 ^ 64) :
    Goes ⟨.waiting false false, .data chunk :: rest, log, some pos, false, sent, issued⟩
      ⟨⟨.read, Buffer.zeros.receive chunk, false, false, true⟩, rest, log.append chunk.bytes,
        some 0, true, sent, issued⟩ := by
  have hturn := Handler.turn_written chunk hseek
  rw [if_pos hmem] at hturn
  apply (goes_written hseek hlt).trans
  rw [hturn]
  exact goes_reopen _

/-- A request is issued, and the file is not opened again. -/
theorem goes_request (seekto : Seekto)
    (hseek : (Buffer.zeros.receive chunk).seekto = some seekto) :
    Goes ⟨.waiting false false, .data chunk :: rest, log, some pos, false, sent, issued⟩
      ⟨⟨.read, Buffer.zeros.receive chunk, false, false, false⟩, rest, log,
        some (seekPos log.closed pos seekto), true, sent, seekto :: issued⟩ := by
  have hrecv : next ⟨.waiting false false, .data chunk :: rest, log, some pos, false, sent,
      issued⟩ = some ⟨⟨.ioctl seekto, Buffer.zeros.receive chunk, false, false, false⟩,
        rest, log, some pos, false, sent, issued⟩ := by
    rw [← Handler.receive_ioctl chunk seekto hseek]
    rfl
  apply Goes.cons hrecv
  apply Goes.cons rfl
  apply Goes.cons rfl
  apply Goes.cons rfl
  exact .refl _

/-- Where the last of the writes of these pieces leaves the position. -/
def lastLength (pos : ℕ) (chunks : List Chunk) : ℕ :=
  (chunks.getLast?.map (fun chunk => chunk.bytes.length)).getD pos

theorem lastLength_cons (pos : ℕ) (chunk : Chunk) (chunks : List Chunk) :
    lastLength pos (chunk :: chunks) = lastLength chunk.bytes.length chunks := by
  rw [lastLength, lastLength, List.getLast?_cons]
  cases chunks.getLast? with
  | none => rfl
  | some last => rfl

theorem lastLength_le (chunks : List Chunk) : lastLength 0 chunks ≤ 1024 := by
  rw [lastLength]
  cases chunks.getLast? with
  | none => exact Nat.zero_le _
  | some last => exact last.le

/-- The pieces before the one that ends the loop are collected. -/
theorem goes_collect (chunks : List Chunk) (hplain : ∀ chunk ∈ chunks, chunk.Plain)
    (closed : List (List UInt8)) (pending : List UInt8) (pos : ℕ)
    (hlt : pending.length + (joined chunks).length < 2 ^ 64) :
    Goes ⟨.waiting false false, chunks.map .data ++ rest, ⟨closed, pending⟩, some pos, locked, sent,
        issued⟩
      ⟨.waiting false false, rest, ⟨closed, pending ++ joined chunks⟩,
        some (lastLength pos chunks), locked, sent, issued⟩ := by
  induction chunks generalizing pending pos with
  | nil =>
    rw [show joined [] = [] from rfl, List.append_nil]
    exact .refl _
  | cons chunk chunks ih =>
    have hchunk := hplain chunk (by simp)
    rw [joined_cons, List.length_append] at hlt
    apply (goes_plain hchunk closed pending (by omega)).trans
    rw [lastLength_cons, joined_cons, ← List.append_assoc]
    apply ih (fun c hc => hplain c (by simp [hc]))
    rw [List.length_append]
    omega

section Received

variable (rest : List Recv) (fPos : Option ℤ) (sent : List UInt8) (issued : List Seekto)
  (closed : List (List UInt8)) {before : List Chunk} (hbefore : ∀ chunk ∈ before, chunk.Plain)

include hbefore

theorem goes_received (hlt : (joined before).length < 2 ^ 64) :
    Goes ⟨.start, before.map .data ++ rest, ⟨closed, []⟩, fPos, locked, sent, issued⟩
      ⟨.waiting false false, rest, ⟨closed, joined before⟩, some (lastLength 0 before), locked,
        sent, issued⟩ := by
  apply (goes_start _ _ _ _ _ _).trans
  apply goes_collect before hbefore closed [] 0
  rw [List.length_nil, Nat.zero_add]
  exact hlt

/-- From the start to the first read, with a line. -/
theorem goes_line_received (hseek : (Buffer.zeros.receive chunk).seekto = none)
    (hmem : newline ∈ chunk.bytes)
    (hlt : (joined before).length + chunk.bytes.length < 2 ^ 64) :
    Goes ⟨.start, before.map .data ++ .data chunk :: rest, ⟨closed, []⟩, fPos, false, sent, issued⟩
      ⟨⟨.read, Buffer.zeros.receive chunk, false, false, true⟩, rest,
        CommandLog.append ⟨closed, joined before⟩ chunk.bytes, some 0, true, sent, issued⟩ := by
  apply (goes_received _ _ _ _ closed hbefore (by omega)).trans
  exact goes_line hseek hmem hlt

/-- From the start to the first read, with a request. -/
theorem goes_request_received (seekto : Seekto)
    (hseek : (Buffer.zeros.receive chunk).seekto = some seekto)
    (hlt : (joined before).length < 2 ^ 64) :
    Goes ⟨.start, before.map .data ++ .data chunk :: rest, ⟨closed, []⟩, fPos, false, sent, issued⟩
      ⟨⟨.read, Buffer.zeros.receive chunk, false, false, false⟩, rest, ⟨closed, joined before⟩,
        some (seekPos closed (lastLength 0 before) seekto), true, sent, seekto :: issued⟩ := by
  apply (goes_received _ _ _ _ closed hbefore hlt).trans
  exact goes_request seekto hseek

end Received

/-- One turn of the read loop that delivers something. -/
theorem goes_read (cmds : List (List UInt8)) (pending : List UInt8) (h : Handler)
    (hpc : h.pc = .read) (data : List UInt8) (hdata : dataAt (cmds.rtake 10) pos 1024 = data)
    (hne : data ≠ []) :
    Goes ⟨h, inbox, ⟨cmds, pending⟩, some pos, locked, sent, issued⟩
      ⟨h, inbox, ⟨cmds, pending⟩, some (loffT (pos + data.length)), locked, sent ++ data,
        issued⟩ := by
  obtain ⟨pc, buffer, closed, error, reopen⟩ := h
  subst hpc
  have hread : next ⟨⟨.read, buffer, closed, error, reopen⟩, inbox, ⟨cmds, pending⟩, some pos,
      locked, sent, issued⟩ = some ⟨⟨.send data, buffer, closed, error, reopen⟩, inbox,
        ⟨cmds, pending⟩, some (loffT (pos + data.length)), locked, sent, issued⟩ := by
    simp only [next, Handler.call, Option.bind_some, exec, Option.map_some, hdata, if_neg hne]
    rfl
  apply Goes.cons hread
  apply Goes.cons rfl
  exact .refl _

/-- The read that delivers nothing ends the session. -/
theorem goes_end (cmds : List (List UInt8)) (pending : List UInt8) (h : Handler)
    (hpc : h.pc = .read) (hdata : dataAt (cmds.rtake 10) pos 1024 = []) :
    Goes ⟨h, inbox, ⟨cmds, pending⟩, some pos, locked, sent, issued⟩
      ⟨{ h with pc := .returned }, inbox, ⟨cmds, pending⟩, none, false, sent, issued⟩ := by
  obtain ⟨pc, buffer, closed, error, reopen⟩ := h
  subst hpc
  have hread : next ⟨⟨.read, buffer, closed, error, reopen⟩, inbox, ⟨cmds, pending⟩, some pos,
      locked, sent, issued⟩ = some ⟨⟨.closeLast, buffer, closed, error, reopen⟩, inbox,
        ⟨cmds, pending⟩, some pos, locked, sent, issued⟩ := by
    simp only [next, Handler.call, Option.bind_some, exec, Option.map_some, hdata, if_true]
    rfl
  apply Goes.cons hread
  apply Goes.cons rfl
  apply Goes.cons rfl
  exact .refl _

/-- The read loop from `pos` on sends `reply`, and the session ends. -/
def Replies (closed : List (List UInt8)) (pos : ℤ) (reply : List UInt8) : Prop :=
  ∀ (h : Handler) (inbox : List Recv) (pending sent : List UInt8) (issued : List Seekto),
    h.pc = .read →
    Goes ⟨h, inbox, ⟨closed, pending⟩, some pos, true, sent, issued⟩
      ⟨{ h with pc := .returned }, inbox, ⟨closed, pending⟩, none, false, sent ++ reply, issued⟩

theorem Replies.nil {closed : List (List UInt8)} {pos : ℤ}
    (hdata : dataAt (closed.rtake 10) pos 1024 = []) : Replies closed pos [] := by
  intro h inbox pending sent issued hpc
  rw [List.append_nil]
  exact goes_end closed pending h hpc hdata

theorem Replies.append {closed : List (List UInt8)} {pos : ℤ} {data reply : List UInt8}
    (hdata : dataAt (closed.rtake 10) pos 1024 = data) (hne : data ≠ [])
    (hreply : Replies closed (loffT (pos + data.length)) reply) :
    Replies closed pos (data ++ reply) := by
  intro h inbox pending sent issued hpc
  apply (goes_read closed pending h hpc data hdata hne).trans
  rw [← List.append_assoc]
  exact hreply h inbox pending (sent ++ data) issued hpc

/-- The whole session of a client whose line arrives without a request. -/
theorem goes_line_session (closed : List (List UInt8)) (fPos : Option ℤ) (sent : List UInt8)
    (issued : List Seekto) {cut : List Chunk} {reply : List UInt8} (hline : IsLine (joined cut))
    (hseek : ∀ chunk ∈ cut, (Buffer.zeros.receive chunk).seekto = none)
    (hsize : (joined cut).length < 2 ^ 64) (hreply : Replies (closed ++ [joined cut]) 0 reply) :
    ∃ h : Handler, h.pc = .returned ∧ h.needToReopen = true ∧
      Goes ⟨.start, cut.map .data, ⟨closed, []⟩, fPos, false, sent, issued⟩
        ⟨h, [], ⟨closed ++ [joined cut], []⟩, none, false, sent ++ reply, issued⟩ := by
  rcases List.eq_nil_or_concat cut with rfl | ⟨before, chunk, rfl⟩
  · have hlast := hline.last
    simp [joined] at hlast
  rw [List.concat_eq_append] at *
  have hjoined : joined (before ++ [chunk]) = joined before ++ chunk.bytes := by
    simp [joined]
  have hplain := plain_of_isLine hline (fun c hc => hseek c (List.mem_append_left _ hc))
  rw [hjoined] at hline hsize hreply ⊢
  rw [List.length_append] at hsize
  have hlast : chunk.bytes.getLast? = some newline := by
    have hlast := hline.last
    rwa [List.getLast?_append_of_ne_nil _ chunk.ne_nil] at hlast
  have hgoes := goes_line_received [] fPos sent issued closed hplain (hseek chunk (by simp))
    (List.mem_of_getLast? hlast) hsize
  rw [CommandLog.append, if_pos hlast] at hgoes
  rw [List.map_append]
  exact ⟨_, rfl, rfl, hgoes.trans (hreply _ _ _ _ _ rfl)⟩

/-- On small commands the reply is the content from `pos` on. -/
def IsContent (closed : List (List UInt8)) (pos : ℤ) (reply : List UInt8) : Prop :=
  ∀ p : ℕ, pos = p → p < 2 ^ 63 → Small (closed.rtake 10) →
    reply = (closed.rtake 10).flatten.drop p

theorem IsContent.nil {closed : List (List UInt8)} {pos : ℤ}
    (hdata : dataAt (closed.rtake 10) pos 1024 = []) : IsContent closed pos [] := by
  intro p hp hlt hsmall
  rw [hp] at hdata
  rw [List.drop_eq_nil_of_le ((hsmall.dataAt p 1024 hlt (by decide)).2 hdata)]

theorem IsContent.append {closed : List (List UInt8)} {pos : ℤ} {data reply : List UInt8}
    (hdata : dataAt (closed.rtake 10) pos 1024 = data) (hne : data ≠ [])
    (hreply : IsContent closed (loffT (pos + data.length)) reply) :
    IsContent closed pos (data ++ reply) := by
  intro p hp hlt hsmall
  subst hp hdata
  have hbelow := lt_of_dataAt_ne_nil hne
  have hle := dataAt_length_le (closed.rtake 10) p 1024
  rw [sizeT_of_lt p (by omega)] at hbelow
  obtain ⟨rest, hrest⟩ := (hsmall.dataAt p 1024 hlt (by decide)).1
  rw [hreply (p + (dataAt (closed.rtake 10) p 1024).length)
    (by rw [loffT_of_range _ (by omega) (by omega)]; omega) (by omega) hsmall,
    ← List.drop_drop, ← hrest, List.drop_left]

/-- A read that delivers something is below 2^32 and moves the position up. -/
theorem sizeT_after_read {cmds : List (List UInt8)} {pos : ℤ}
    (hne : dataAt cmds pos 1024 ≠ []) :
    sizeT pos < 2 ^ 32 ∧ sizeT pos < sizeT (loffT (pos + (dataAt cmds pos 1024).length)) := by
  have hbelow := lt_of_dataAt_ne_nil hne
  have hle := dataAt_length_le cmds pos 1024
  have hpos := List.length_pos_iff.mpr hne
  refine ⟨hbelow, ?_⟩
  unfold sizeT loffT at *
  omega

/-- The read loop ends for every content of the device. -/
theorem exists_replies (closed : List (List UInt8)) (pos : ℤ) :
    ∃ reply, Replies closed pos reply ∧ IsContent closed pos reply := by
  obtain ⟨n, hn⟩ : ∃ n, 2 ^ 32 - sizeT pos ≤ n := ⟨_, le_rfl⟩
  induction n generalizing pos with
  | zero =>
    have hdata : dataAt (closed.rtake 10) pos 1024 = [] := by
      by_contra hne
      have := (sizeT_after_read hne).1
      omega
    exact ⟨[], .nil hdata, .nil hdata⟩
  | succ n ih =>
    by_cases hne : dataAt (closed.rtake 10) pos 1024 = []
    · exact ⟨[], .nil hne, .nil hne⟩
    · obtain ⟨hbelow, hup⟩ := sizeT_after_read hne
      obtain ⟨reply, hreply, hcontent⟩ :=
        ih (loffT (pos + (dataAt (closed.rtake 10) pos 1024).length)) (by omega)
      exact ⟨_, .append rfl hne hreply, .append rfl hne hcontent⟩

end Aesd.Server.Session
