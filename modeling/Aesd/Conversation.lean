import Aesd.SeekRequest
import Aesd.SeekTargets
import Aesd.Sessions

/-!
Clients served one after the other, some of which send a line and some a printed seek
request. A line is stored and the whole content comes back; a request stores nothing,
and the content comes back from where the request has put the file.
-/
namespace Aesd.Server

open Driver Runs CString

theorem length_print_le (n : ℕ) (h : n < 2 ^ 32) : (printUnsigned n).length ≤ 10 := by
  unfold printUnsigned
  split
  · decide
  · rw [List.length_map, List.length_reverse, Nat.digits_length_le_iff (by decide)]
    omega

theorem length_request_pos (seekto : Seekto) : 0 < (requestText seekto ++ [newline]).length := by
  rw [List.length_append, List.length_singleton]
  exact Nat.succ_pos _

theorem length_request_le (seekto : Seekto) :
    (requestText seekto ++ [newline]).length ≤ 1024 := by
  have hcmd := length_print_le _ seekto.writeCmd_lt
  have hoff := length_print_le _ seekto.writeCmdOffset_lt
  have hkey : pattern.length = 19 := by decide
  simp only [requestText, List.length_append, List.length_cons, List.length_nil]
  omega

/-- A printed request with its newline, as one `recv` returns it. -/
def requestChunk (seekto : Seekto) : Chunk :=
  ⟨requestText seekto ++ [newline], length_request_pos seekto, length_request_le seekto⟩

theorem seekto_requestChunk (seekto : Seekto) :
    (Buffer.zeros.receive (requestChunk seekto)).seekto = some seekto := by
  have hbytes : (requestChunk seekto).bytes = [] ++ requestText seekto ++ [newline] := rfl
  have hstring := ofBuffer_request hbytes (by simp)
  refine Buffer.seekto_of_request hstring ?_ (endsNumber_ofBuffer ?_)
  · intro i hi
    cases hi
  · intro b hb
    cases hb
    decide

/-- What a client sends: a line in some pieces, or a request. -/
inductive Message
  | line (cut : List Chunk)
  | seek (seekto : Seekto)

namespace Message

def cut : Message → List Chunk
  | .line cut => cut
  | .seek seekto => [requestChunk seekto]

/-- The commands that the device gets from the message. -/
def stored : Message → List (List UInt8)
  | .line cut => [joined cut]
  | .seek _ => []

/-- A line has one newline, at its end, and no piece of it can be taken for a request. -/
def Valid : Message → Prop
  | .line cut => IsLine (joined cut) ∧ (joined cut).length ≤ 65536 ∧
      ∀ chunk ∈ cut, (Buffer.zeros.receive chunk).seekto = none
  | .seek _ => True

end Message

/-- The lines of the first `k` clients. -/
def linesBefore (messages : ℕ → Message) (k : ℕ) : List (List UInt8) :=
  (List.range k).flatMap (fun j => (messages j).stored)

/-- What client `k` gets back. -/
def reply (messages : ℕ → Message) (k : ℕ) : List UInt8 :=
  match messages k with
  | .line _ => ((linesBefore messages (k + 1)).rtake 10).flatten
  | .seek seekto => ((linesBefore messages k).rtake 10).flatten.drop
      (seekPos (linesBefore messages k) 0 seekto).toNat

/-- The clients other than `i`: those before it have their replies, those after it have
not begun. -/
structure Queued (messages : ℕ → Message) (i : ℕ) (s : State) : Prop where
  earlier : ∀ j < i, (s.handlers j).pc = .returned ∧ s.sent j = reply messages j
  later : ∀ j, i < j → s.handlers j = .start ∧ s.sent j = [] ∧
    s.inbox j = (messages j).cut.map .data

/-- Client `i` is served, and the server is where its session `c` is. -/
structure Talking (messages : ℕ → Message) (i : ℕ) (c : Session) (s : State) : Prop where
  queued : Queued messages i s
  handler : s.handlers i = c.handler
  sees : Sees i c s

section Talks

variable {messages : ℕ → Message} {i : ℕ} {c d : Session} {s : State}

theorem Queued.task_eq (h : Queued messages i s) (hpc : (s.handlers i).pc ≠ .returned) {a : Act}
    (hturn : InTurn s a) : a.task = i := by
  rcases Nat.lt_trichotomy a.task i with hlt | heq | hgt
  · exact absurd (h.earlier _ hlt).1 hturn.unfinished
  · exact heq
  · exact absurd (hturn.earlier i hgt) hpc

/-- A call of client `i` concerns no other client. -/
theorem Queued.step (h : Queued messages i s) {s' : State} {answer : Answer} {call : Call}
    {result : Result} (hexec : exec s i answer call = some (s', result)) :
    Queued messages i (s.resumed s' i result) := by
  have hframe := exec_frame hexec
  constructor
  · intro j hj
    have hne : j ≠ i := by omega
    rw [State.resumed_of_ne s s' result hne]
    change (s.handlers j).pc = .returned ∧ s'.sent j = _
    rw [(hframe.others j hne).2.2]
    exact h.earlier j hj
  · intro j hj
    have hne : j ≠ i := by omega
    obtain ⟨hinbox, _, hsent⟩ := hframe.others j hne
    rw [State.resumed_of_ne s s' result hne]
    change s.handlers j = .start ∧ s'.sent j = [] ∧ s'.inbox j = _
    rw [hsent, hinbox]
    exact h.later j hj

theorem Talking.step (h : Talking messages i c s) (hnext : c.next = some d) :
    (∃ a, InTurn s a) ∧
      ∀ a, InTurn s a → ∃ t, Server.step s a = some t ∧ Talking messages i d t := by
  have hpc : (s.handlers i).pc ≠ .returned := by
    rw [h.handler]
    exact Session.unfinished_of_next hnext
  constructor
  · exact ⟨⟨i, .granting 0⟩, Answer.granting_granted 0, hpc, fun j hj => (h.queued.earlier j hj).1⟩
  · intro a hturn
    cases h.queued.task_eq hpc hturn
    obtain ⟨call, s', result, hcall, hexec, hsees, hhandler⟩ :=
      h.sees.step h.handler hnext hturn.answer
    exact ⟨_, step_eq_some_iff.mpr ⟨call, s', result, hcall, hexec, rfl⟩, h.queued.step hexec,
      hhandler, hsees⟩

theorem Talking.leads (h : Talking messages i c s) (hgoes : c.Goes d) :
    Leads Server.step InTurn (Talking messages i d) s :=
  leads_of_simulation (Talking messages i) (fun _ _ _ h hnext => h.step hnext) hgoes h

end Talks

/-- A seek on commands of ordinary size comes to a position that the file can have. -/
theorem seekPos_range {k : Kernel} {es : List BufferEntry} {cmds : List (List UInt8)}
    (h : Holds k es cmds) (hsmall : Small (cmds.rtake 10)) (seekto : Seekto) :
    seekPos cmds 0 seekto = (seekPos cmds 0 seekto).toNat ∧
      (seekPos cmds 0 seekto).toNat < 2 ^ 63 := by
  have hoff := seekto.writeCmdOffset_lt
  have htotal := hsmall.2
  rw [← h.ioctl_eq, aesdIoctl_seekto]
  by_cases hc : seekto.writeCmd < 10
  · have hle := h.slotSum_le seekto.writeCmd (by omega)
    rw [adjust_eq k.dev 0 seekto hc (by omega)]
    split
    · simp only [Int.toNat_natCast, true_and]
      omega
    · simp
  · rw [(adjust_refused_iff k.dev 0 seekto).mpr (Or.inl (by omega))]
    simp

/-- The server is about to begin session `k`. -/
structure Waiting (messages : ℕ → Message) (k : ℕ) (s : State) : Prop where
  earlier : ∀ j < k, (s.handlers j).pc = .returned ∧ s.sent j = reply messages j
  later : ∀ j, k ≤ j → s.handlers j = .start ∧ s.sent j = [] ∧
    s.inbox j = (messages j).cut.map .data
  refines : Refines s.kernel ⟨linesBefore messages k, []⟩
  fits : CommandLog.Fits ⟨linesBefore messages k, []⟩
  mutex : s.fileMutex = none

namespace Waiting

variable {messages : ℕ → Message} {k : ℕ} {s : State}

theorem init (messages : ℕ → Message) :
    Waiting messages 0 (init (fun i => (messages i).cut.map .data)) where
  earlier j hj := by cases hj
  later _ _ := ⟨rfl, rfl, rfl⟩
  refines := refines_init
  fits := CommandLog.fits_empty
  mutex := rfl

theorem talking (h : Waiting messages k s) : ∃ fPos,
    Talking messages k ⟨.start, (messages k).cut.map .data, ⟨linesBefore messages k, []⟩, fPos,
      false, [], []⟩ s := by
  obtain ⟨hstart, hsent, hinbox⟩ := h.later k le_rfl
  exact ⟨_, ⟨h.earlier, fun j hj => h.later j hj.le⟩, hstart, hinbox, h.refines, h.fits, rfl,
    by rw [h.mutex]; rfl, hsent⟩

/-- After a session that has sent its reply and left the lines `lines`. -/
theorem of_returned {handler : Handler} {inbox : List Recv} {lines : List (List UInt8)}
    {fPos : Option ℤ} {issued : List Seekto} (hpc : handler.pc = .returned)
    (hlines : linesBefore messages (k + 1) = lines)
    (h : Talking messages k
      ⟨handler, inbox, ⟨lines, []⟩, fPos, false, reply messages k, issued⟩ s) :
    Waiting messages (k + 1) s where
  earlier j hj := by
    rcases Nat.lt_succ_iff_lt_or_eq.mp hj with hlt | rfl
    · exact h.queued.earlier j hlt
    · exact ⟨by rw [h.handler]; exact hpc, h.sees.sent⟩
  later j hj := h.queued.later j hj
  refines := by rw [hlines]; exact h.sees.refines
  fits := by rw [hlines]; exact h.sees.fits
  mutex := by simpa using h.sees.locked

theorem lines_small (messages : ℕ → Message) (hvalid : ∀ j, (messages j).Valid) (k : ℕ) :
    Small ((linesBefore messages k).rtake 10) := by
  apply small_of_le
  · rw [List.rtake, List.length_drop]
    omega
  · intro cmd hcmd
    obtain ⟨j, _, hstored⟩ := List.mem_flatMap.mp (List.mem_of_mem_drop hcmd)
    have hj := hvalid j
    cases hm : messages j with
    | line cut =>
      rw [hm] at hj hstored
      rw [List.mem_singleton.mp hstored]
      exact hj.2.1
    | seek seekto =>
      rw [hm] at hstored
      cases hstored

/-- One session from its first call to its return. -/
theorem leads (h : Waiting messages k s) (hvalid : ∀ j, (messages j).Valid) :
    Leads step InTurn (Waiting messages (k + 1)) s := by
  obtain ⟨fPos, htalking⟩ := h.talking
  have hk := hvalid k
  have hlines : linesBefore messages (k + 1) = linesBefore messages k ++ (messages k).stored := by
    simp [linesBefore, List.range_succ]
  have hsmall := lines_small messages hvalid
  cases hm : messages k with
  | line cut =>
    rw [hm] at hk htalking hlines
    obtain ⟨hline, hsize, hseek⟩ := hk
    obtain ⟨answer, hreplies, hcontent⟩ :=
      Session.exists_replies (linesBefore messages k ++ [joined cut]) 0
    have hanswer : [] ++ answer = reply messages k := by
      have hall := hcontent 0 rfl (by decide) (hlines ▸ hsmall (k + 1))
      rw [List.nil_append, hall, List.drop_zero]
      simp only [reply, hm, hlines, Message.stored]
    obtain ⟨handler, hpc, _, hgoes⟩ := Session.goes_line_session _ fPos [] [] hline hseek
      (by omega) hreplies
    rw [hanswer] at hgoes
    apply (htalking.leads hgoes).trans
    intro t ht
    exact .here t (of_returned hpc hlines ht)
  | seek seekto =>
    rw [hm] at htalking hlines
    obtain ⟨es, hholds⟩ := h.refines.1
    obtain ⟨hpos, hrange⟩ := seekPos_range hholds (hsmall k) seekto
    obtain ⟨answer, hreplies, hcontent⟩ := Session.exists_replies (linesBefore messages k)
      (seekPos (linesBefore messages k) 0 seekto)
    have hanswer : [] ++ answer = reply messages k := by
      rw [List.nil_append, hcontent _ hpos hrange (hsmall k)]
      simp only [reply, hm]
    have hnone : ∀ chunk ∈ ([] : List Chunk), chunk.Plain := by simp
    have hgoes := Session.goes_request_received [] fPos [] [] (linesBefore messages k) hnone seekto
      (seekto_requestChunk seekto) (by decide)
    have hend := hgoes.trans (hreplies _ _ _ _ _ rfl)
    rw [hanswer] at hend
    apply (htalking.leads hend).trans
    intro t ht
    exact .here t (of_returned rfl (hlines.trans (List.append_nil _)) ht)

end Waiting

/-- Whatever the pieces of the lines and whatever the kernel picks, every session ends, and
its client gets the content as its own message has left it or asks for it. -/
theorem conversation_replies (messages : ℕ → Message) (hvalid : ∀ j, (messages j).Valid) (k : ℕ) :
    Leads step InTurn
      (fun s => ∀ j < k, (s.handlers j).pc = .returned ∧ s.sent j = reply messages j)
      (init (fun i => (messages i).cut.map .data)) := by
  have hwaiting : Leads step InTurn (Waiting messages k)
      (init (fun i => (messages i).cut.map .data)) := by
    induction k with
    | zero => exact .here _ (Waiting.init messages)
    | succ k ih =>
      apply ih.trans
      intro s h
      exact h.leads hvalid
  exact hwaiting.trans (fun s h => .here s h.earlier)

/-- A line, a second one in two pieces, and then requests for the second byte of that one. -/
def sampleMessages : ℕ → Message
  | 0 => .line [⟨[97, 98, newline], by decide, by decide⟩]
  | 1 => .line [⟨[99], by decide, by decide⟩, ⟨[100, newline], by decide, by decide⟩]
  | _ => .seek ⟨1, 1, by decide, by decide⟩

theorem conversation_replies_sample :
    reply sampleMessages 1 = [97, 98, newline, 99, 100, newline] ∧
      reply sampleMessages 2 = [100, newline] ∧
      Leads step InTurn
        (fun s => ∀ j < 3, (s.handlers j).pc = .returned ∧ s.sent j = reply sampleMessages j)
        (init (fun i => (sampleMessages i).cut.map .data)) := by
  refine ⟨by decide, by decide, conversation_replies sampleMessages ?_ 3⟩
  intro j
  match j with
  | 0 =>
    refine ⟨⟨by decide, by decide⟩, by decide, ?_⟩
    intro chunk hchunk
    exact Buffer.seekto_eq_none chunk _ (infix_joined hchunk) (by decide)
  | 1 =>
    refine ⟨⟨by decide, by decide⟩, by decide, ?_⟩
    intro chunk hchunk
    exact Buffer.seekto_eq_none chunk _ (infix_joined hchunk) (by decide)
  | j + 2 => trivial

end Aesd.Server
