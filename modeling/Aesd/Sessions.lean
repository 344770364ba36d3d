import Aesd.Packets
import Aesd.SessionStages

/-!
Clients served one after the other. Each session follows the machine of a client that
is served alone: the packet is collected, whatever its pieces are, and the content is
read back. The device between two sessions holds the last ten packets and nothing
else.
-/
namespace Aesd.Server

open Driver Runs

/-- Every call is granted, and a client is served only after all before it. -/
structure InTurn (s : State) (a : Act) : Prop where
  answer : a.answer.Granted
  unfinished : (s.handlers a.task).pc ≠ .returned
  earlier : ∀ j < a.task, (s.handlers j).pc = .returned

/-- The packets of the sessions `0 .. j` that the device keeps. -/
def kept (packet : ℕ → List UInt8) (j : ℕ) : List (List UInt8) :=
  ((List.range (j + 1)).map packet).rtake 10

/-- Client `i` is served: those before it have their replies, those after it have
not begun. -/
structure Serving (packet : ℕ → List UInt8) (i : ℕ) (s : State) : Prop where
  earlier : ∀ j < i, (s.handlers j).pc = .returned ∧ s.sent j = (kept packet j).flatten
  later : ∀ j, i < j → s.handlers j = .start ∧ s.sent j = []
  whole : ∃ m current, Whole packet s (List.range m) current

namespace Serving

variable {packet : ℕ → List UInt8} {i : ℕ} {s : State}

theorem task_eq (h : Serving packet i s) (hpc : (s.handlers i).pc ≠ .returned) {a : Act}
    (hturn : InTurn s a) : a.task = i := by
  rcases Nat.lt_trichotomy a.task i with hlt | heq | hgt
  · exact absurd (h.earlier _ hlt).1 hturn.unfinished
  · exact heq
  · exact absurd (hturn.earlier i hgt) hpc

/-- No other client is in the middle of its packet. -/
theorem not_midPacket (h : Serving packet i s) (hpacket : ∀ i, IsPacket (packet i)) (j : ℕ)
    (hj : j ≠ i) : ¬ MidPacket s j := by
  obtain ⟨m, current, hwhole⟩ := h.whole
  intro hmid
  rcases Nat.lt_or_gt_of_ne hj with hlt | hgt
  · apply hmid.2
    rw [(hwhole.progress j).finished (Or.inr (h.earlier j hlt).1)]
    exact (hpacket j).newline_mem
  · apply hmid.1
    have hprogress := hwhole.progress j
    rw [(h.later j hgt).1] at hprogress
    exact hprogress.written_start

/-- The closed commands are the packets of the sessions that have written theirs. -/
theorem order_eq (h : Serving packet i s) (hpacket : ∀ i, IsPacket (packet i)) {m : ℕ}
    {current : Option ℕ} (hwhole : Whole packet s (List.range m) current) :
    m = if newline ∈ s.written i then i + 1 else i := by
  have hmem : ∀ j, j < m ↔ newline ∈ s.written j := by
    intro j
    rw [← hwhole.finished, List.mem_range]
  have hbefore : ∀ j < i, j < m := by
    intro j hj
    rw [hmem, (hwhole.progress j).finished (Or.inr (h.earlier j hj).1)]
    exact (hpacket j).newline_mem
  have hafter : ¬ i + 1 < m := by
    intro hlt
    have hprogress := hwhole.progress (i + 1)
    rw [(h.later (i + 1) (Nat.lt_succ_self i)).1] at hprogress
    rw [hmem, hprogress.written_start] at hlt
    cases hlt
  have hlow : i ≤ m := by
    by_contra hlt
    have := hbefore m (by omega)
    omega
  have hself := hmem i
  split
  · rename_i hnewline
    have := hself.mpr hnewline
    omega
  · rename_i hnewline
    have := mt hself.mp hnewline
    omega

theorem step (h : Serving packet i s) (hpacket : ∀ i, IsPacket (packet i)) {answer : Answer}
    {call : Call} {s' : State} {result : Result} (hanswer : answer.Granted)
    (hdevice : (s.handlers i).pc.isWrite = true → s.device.isSome = true)
    (hcall : (s.handlers i).call = some call)
    (hexec : exec s i answer call = some (s', result)) :
    Serving packet i (s.resumed s' i result) := by
  obtain ⟨m, current, hwhole⟩ := h.whole
  have hframe := exec_frame hexec
  have hstep : Server.step s ⟨i, answer⟩ = some (s.resumed s' i result) :=
    step_eq_some_iff.mpr ⟨call, s', result, hcall, hexec, rfl⟩
  obtain ⟨order, current', hwhole', horder⟩ := hwhole.step hpacket
    ⟨⟨fun _ => hanswer.granted, fun _ => hanswer.toWrites, hdevice⟩,
      fun _ j hj => h.not_midPacket hpacket j hj⟩ hstep
  refine ⟨?_, ?_, ?_⟩
  · intro j hj
    rw [s.resumed_of_ne s' result (Nat.ne_of_lt hj)]
    exact ⟨(h.earlier j hj).1, (hframe.others j (Nat.ne_of_lt hj)).2.2.trans (h.earlier j hj).2⟩
  · intro j hj
    rw [s.resumed_of_ne s' result (Nat.ne_of_gt hj)]
    exact ⟨(h.later j hj).1, (hframe.others j (Nat.ne_of_gt hj)).2.2.trans (h.later j hj).2⟩
  · rcases horder with rfl | rfl
    · exact ⟨m, current', hwhole'⟩
    · have hnew : i ∉ List.range m := by
        have hnodup := hwhole'.nodup
        rw [← List.concat_eq_append] at hnodup
        exact (List.nodup_concat _ _).mp hnodup |>.1
      have hm := h.order_eq hpacket hwhole
      rw [List.mem_range] at hnew
      have hmi : m = i := by
        split at hm
        · omega
        · exact hm
      subst hmi
      exact ⟨m + 1, current', List.range_succ ▸ hwhole'⟩

end Serving

/-- Client `i` is served and stands at `pc`. -/
structure At (packet : ℕ → List UInt8) (i : ℕ) (pc : Pc) (reopen : Bool) (mutex : Option ℕ)
    (sent : List UInt8) (s : State) : Prop where
  serving : Serving packet i s
  pc_eq : (s.handlers i).pc = pc
  reopen_eq : (s.handlers i).needToReopen = reopen
  mutex_eq : s.fileMutex = mutex
  sent_eq : s.sent i = sent

/-- Client `i` is served, and the server is where its session `c` is. -/
structure Tracked (packet : ℕ → List UInt8) (i : ℕ) (c : Session) (s : State) : Prop where
  serving : Serving packet i s
  handler : s.handlers i = c.handler
  sees : Sees i c s

namespace Tracked

variable {packet : ℕ → List UInt8} {i : ℕ} {c d : Session} {s : State}

theorem step (h : Tracked packet i c s) (hpacket : ∀ i, IsPacket (packet i))
    (hnext : c.next = some d) :
    (∃ a, InTurn s a) ∧
      ∀ a, InTurn s a → ∃ t, Server.step s a = some t ∧ Tracked packet i d t := by
  have hpc : (s.handlers i).pc ≠ .returned := by
    rw [h.handler]
    exact Session.unfinished_of_next hnext
  have hdevice : (s.handlers i).pc.isWrite = true → s.device.isSome = true := by
    intro hwrite
    rw [h.handler] at hwrite
    have hopen := Session.isSome_of_next hnext hwrite
    rwa [← h.sees.fPos, Option.isSome_map] at hopen
  constructor
  · exact ⟨⟨i, .granting 0⟩, Answer.granting_granted 0, hpc, fun j hj => (h.serving.earlier j hj).1⟩
  · intro a hturn
    cases h.serving.task_eq hpc hturn
    obtain ⟨call, s', result, hcall, hexec, hsees, hhandler⟩ :=
      h.sees.step h.handler hnext hturn.answer
    refine ⟨_, step_eq_some_iff.mpr ⟨call, s', result, hcall, hexec, rfl⟩, ?_, hhandler, hsees⟩
    exact h.serving.step hpacket hturn.answer hdevice hcall hexec

theorem leads (h : Tracked packet i c s) (hpacket : ∀ i, IsPacket (packet i))
    (hgoes : c.Goes d) : Leads Server.step InTurn (Tracked packet i d) s :=
  leads_of_simulation (Tracked packet i) (fun _ _ _ h hnext => h.step hpacket hnext) hgoes h

end Tracked

/-- Ten packets of the allowed size are far below every limit of the read path. -/
theorem small_kept (packet : ℕ → List UInt8) (hsize : ∀ i, (packet i).length ≤ 65536) (i : ℕ) :
    Small (kept packet i) := by
  apply small_of_le
  · rw [kept, List.rtake, List.length_drop]
    omega
  · intro cmd hcmd
    obtain ⟨j, _, rfl⟩ := List.mem_map.mp (List.mem_of_mem_drop hcmd)
    exact hsize j

/-- Between two sessions: the first `k` clients have returned with their replies,
the others have not begun, and no bytes are pending in the device. -/
structure Between (packet : ℕ → List UInt8) (k : ℕ) (s : State) : Prop where
  served : ∀ j < k, (s.handlers j).pc = .returned ∧ s.sent j = (kept packet j).flatten
  waiting : ∀ j, k ≤ j → s.handlers j = .start
  no_pending : s.kernel.dev.entryCache = ⟨none, 0⟩

/-- The server is about to begin session `k`. -/
structure Ready (packet : ℕ → List UInt8) (k : ℕ) (s : State) : Prop where
  serving : Serving packet k s
  start : s.handlers k = .start
  mutex : s.fileMutex = none
  sent : s.sent k = []

namespace Ready

variable {packet : ℕ → List UInt8} {k : ℕ} {s : State}

theorem init (chunks : ℕ → List Chunk) (hjoined : ∀ i, joined (chunks i) = packet i) :
    Ready packet 0 (init (fun i => (chunks i).map .data)) where
  serving := by
    refine ⟨by simp, fun _ _ => ⟨rfl, rfl⟩, 0, none, ?_⟩
    exact Whole.init _ chunks (fun _ => rfl) hjoined
  start := rfl
  mutex := rfl
  sent := rfl

/-- The end of one session is the start of the next. -/
theorem of_returned (h : At packet k .returned true none (kept packet k).flatten s) :
    Ready packet (k + 1) s where
  serving := by
    refine ⟨?_, fun j hj => h.serving.later j (by omega), h.serving.whole⟩
    intro j hj
    rcases Nat.lt_succ_iff_lt_or_eq.mp hj with hlt | rfl
    · exact h.serving.earlier j hlt
    · exact ⟨h.pc_eq, h.sent_eq⟩
  start := (h.serving.later (k + 1) (Nat.lt_succ_self k)).1
  mutex := h.mutex_eq
  sent := (h.serving.later (k + 1) (Nat.lt_succ_self k)).2

/-- No packet is begun between two sessions. -/
theorem whole (h : Ready packet k s) (hpacket : ∀ i, IsPacket (packet i)) :
    Whole packet s (List.range k) none := by
  obtain ⟨m, current, hwhole⟩ := h.serving.whole
  have hprogress := hwhole.progress k
  rw [h.start] at hprogress
  have hwritten := hprogress.written_start
  have hm := h.serving.order_eq hpacket hwhole
  rw [hwritten, if_neg (by simp)] at hm
  have hcurrent : current = none := by
    apply Option.eq_none_iff_forall_ne_some.mpr
    intro j hj
    have hmid := (hwhole.current_iff j).mpr hj
    by_cases hjk : j = k
    · subst hjk
      exact hmid.1 hwritten
    · exact h.serving.not_midPacket hpacket j hjk hmid
  rw [hm, hcurrent] at hwhole
  exact hwhole

theorem between (h : Ready packet k s) (hpacket : ∀ i, IsPacket (packet i)) :
    Between packet k s where
  served := h.serving.earlier
  waiting j hj := by
    rcases Nat.eq_or_lt_of_le hj with rfl | hlt
    · exact h.start
    · exact (h.serving.later j hlt).1
  no_pending := by
    rcases (h.whole hpacket).refines.2 with hempty | hfull
    · exact hempty.2
    · exact absurd rfl hfull.1

/-- The session that is about to begin, seen as a session of its own. -/
theorem tracked (h : Ready packet k s) (hpacket : ∀ i, IsPacket (packet i))
    (hsize : ∀ i, (packet i).length ≤ 65536) :
    ∃ cut fPos, joined cut = packet k ∧ Tracked packet k ⟨.start, cut.map .data,
      ⟨(List.range k).map packet, []⟩, fPos, false, [], []⟩ s := by
  have hwhole := h.whole hpacket
  obtain ⟨cut, hinbox, _, _, hstart⟩ := hwhole.progress k
  rw [h.start] at hstart
  have hfits : CommandLog.Fits ⟨(List.range k).map packet, []⟩ := by
    refine ⟨?_, by simp⟩
    intro cmd hcmd
    obtain ⟨j, _, rfl⟩ := List.mem_map.mp hcmd
    have := hsize j
    omega
  have hsees : Sees k ⟨.start, cut.map .data, ⟨(List.range k).map packet, []⟩,
      s.device.map (fun d => d.2.fPos), false, [], []⟩ s :=
    ⟨hinbox, hwhole.refines, hfits, rfl, by rw [h.mutex]; rfl, h.sent⟩
  exact ⟨cut, _, hstart.2.symm, h.serving, h.start, hsees⟩

/-- One session from its first call to its return. -/
theorem leads (h : Ready packet k s) (hpacket : ∀ i, IsPacket (packet i))
    (hsize : ∀ i, (packet i).length ≤ 65536) :
    Leads step InTurn (Ready packet (k + 1)) s := by
  obtain ⟨cut, fPos, hcut, htracked⟩ := h.tracked hpacket hsize
  have hclosed : (List.range k).map packet ++ [joined cut] =
      (List.range (k + 1)).map packet := by
    rw [hcut, List.range_succ, List.map_append, List.map_singleton]
  have hseek : ∀ chunk ∈ cut, (Buffer.zeros.receive chunk).seekto = none := by
    intro chunk hchunk
    exact Buffer.seekto_eq_none chunk _ (infix_joined hchunk) (hcut ▸ (hpacket k).noSeek)
  obtain ⟨reply, hreply, hcontent⟩ :=
    Session.exists_replies ((List.range k).map packet ++ [joined cut]) 0
  have hall : reply = (kept packet k).flatten := by
    rw [hclosed] at hcontent
    exact hcontent 0 rfl (by decide) (small_kept packet hsize k)
  obtain ⟨handler, hpc, hreopen, hgoes⟩ := Session.goes_line_session _ fPos [] []
    (hcut ▸ (hpacket k).isLine) hseek (by rw [hcut]; have := hsize k; omega) hreply
  apply (htracked.leads hpacket hgoes).trans
  intro t ht
  refine .here t (of_returned ⟨ht.serving, ?_, ?_, ?_, ?_⟩)
  · rw [ht.handler, hpc]
  · rw [ht.handler, hreopen]
  · simpa using ht.sees.locked
  · rw [ht.sees.sent, hall, List.nil_append]

end Ready

/-- Whatever the pieces of the packets and whatever the kernel picks, every
session ends, its client gets the last ten packets up to its own, and the device
holds no unfinished command. -/
theorem sessions_reply (packet : ℕ → List UInt8) (chunks : ℕ → List Chunk)
    (hpacket : ∀ i, IsPacket (packet i)) (hsize : ∀ i, (packet i).length ≤ 65536)
    (hjoined : ∀ i, joined (chunks i) = packet i) (k : ℕ) :
    Leads step InTurn (Between packet k) (init (fun i => (chunks i).map .data)) := by
  have hready : Leads step InTurn (Ready packet k) (init (fun i => (chunks i).map .data)) := by
    induction k with
    | zero => exact .here _ (Ready.init chunks hjoined)
    | succ k ih =>
      apply ih.trans
      intro s h
      exact h.leads hpacket hsize
  exact hready.trans (fun s h => .here s (h.between hpacket))

/-- Three sessions; the first packet arrives in two pieces. -/
theorem sessions_reply_sample :
    (kept samplePacket 2).flatten = [97, 98, newline, 99, newline, 99, newline] ∧
      Leads step InTurn (Between samplePacket 3)
        (init (fun i => (sampleChunks i).map .data)) := by
  refine ⟨by decide, sessions_reply samplePacket sampleChunks samplePacket_isPacket ?_
    joined_sampleChunks 3⟩
  intro i
  unfold samplePacket
  split <;> simp

end Aesd.Server
