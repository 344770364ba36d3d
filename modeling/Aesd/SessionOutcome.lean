import Aesd.PacketCompletion
import Aesd.SeekTargets

/-!
How a session ends, for each way in which its stream is cut into `recv` results: the first
piece with a seek request in it decides, and without one the stream becomes a command. A
request that the device refuses leaves the file at the length of the piece written before
it, from where the reply is read.
-/
namespace Aesd.Server

open Driver Runs

/-- The pieces before the first one in which a request is recognised, and the request. -/
def firstRequest : List Chunk → Option (List Chunk × Seekto)
  | [] => none
  | chunk :: rest =>
      match (Buffer.zeros.receive chunk).seekto with
      | some seekto => some ([], seekto)
      | none => (firstRequest rest).map (fun found => (chunk :: found.1, found.2))

theorem firstRequest_cons_of_some {chunk : Chunk} {seekto : Seekto}
    (h : (Buffer.zeros.receive chunk).seekto = some seekto) (rest : List Chunk) :
    firstRequest (chunk :: rest) = some ([], seekto) := by
  simp only [firstRequest, h]

theorem firstRequest_eq_none_iff (cut : List Chunk) :
    firstRequest cut = none ↔ ∀ chunk ∈ cut, (Buffer.zeros.receive chunk).seekto = none := by
  induction cut with
  | nil => simp [firstRequest]
  | cons chunk rest ih =>
    rw [firstRequest, List.forall_mem_cons, ← ih]
    cases hseek : (Buffer.zeros.receive chunk).seekto with
    | none => simp
    | some seekto => simp

theorem firstRequest_eq_some {cut before : List Chunk} {seekto : Seekto}
    (h : firstRequest cut = some (before, seekto)) :
    ∃ chunk rest, cut = before ++ chunk :: rest ∧
      (Buffer.zeros.receive chunk).seekto = some seekto ∧
      ∀ c ∈ before, (Buffer.zeros.receive c).seekto = none := by
  induction cut generalizing before with
  | nil => cases h
  | cons chunk rest ih =>
    rw [firstRequest] at h
    split at h
    · rename_i seekto' hseek
      cases h
      exact ⟨chunk, rest, rfl, hseek, by simp⟩
    · rename_i hseek
      obtain ⟨found, hfound, heq⟩ := Option.map_eq_some_iff.mp h
      cases heq
      obtain ⟨chunk', rest', hrest, hseek', hbefore⟩ := ih hfound
      refine ⟨chunk', rest', by rw [hrest, List.cons_append], hseek', ?_⟩
      intro c hc
      rcases List.mem_cons.mp hc with rfl | hmem
      · exact hseek
      · exact hbefore c hmem

/-- What is left of a session: the requests issued, the commands and the pending bytes
of the device, and everything sent to the client. -/
structure Outcome where
  issued : List Seekto
  commands : List (List UInt8)
  pending : List UInt8
  sent : List UInt8

structure HasOutcome (i : ℕ) (out : Outcome) (o : Observed) : Prop where
  returned : (o.state.handlers i).pc = .returned
  issued : o.issued = out.issued
  commands : o.state.kernel.LiveCommands out.commands
  pending : o.state.kernel.bytesOf o.state.kernel.dev.entryCache = some out.pending
  sent : o.state.sent i = out.sent

/-- The session of client `i` ends with this outcome, whatever the kernel answers. -/
def Ends (i : ℕ) (s : State) (out : Outcome) : Prop :=
  Leads observe (fun o a => Alone i o.state a) (HasOutcome i out) ⟨s, []⟩

theorem Ends.unique {i : ℕ} {s : State} {out out' : Outcome} (h : Ends i s out)
    (h' : Ends i s out') : out = out' := by
  have hstop : ∀ out (o : Observed) (a : Act), HasOutcome i out o → ¬ Alone i o.state a := by
    intro out o a hout halone
    exact halone.unfinished hout.returned
  obtain ⟨o, ho, ho'⟩ := Leads.meet (hstop out) (hstop out') h h'
  obtain ⟨issued, commands, pending, sent⟩ := out
  obtain ⟨issued', commands', pending', sent'⟩ := out'
  have hissued : issued = issued' := ho.issued.symm.trans ho'.issued
  have hcommands : commands = commands' :=
    liveCommands_unique _ commands commands' ho.commands ho'.commands
  have hpending : pending = pending' := Option.some.inj (ho.pending.symm.trans ho'.pending)
  have hsent : sent = sent' := ho.sent.symm.trans ho'.sent
  rw [hissued, hcommands, hpending, hsent]

/-- The stream of client `i` arrives in the pieces `cut`. -/
def State.receiving (s : State) (i : ℕ) (cut : List Chunk) : State :=
  { s with inbox := Function.update s.inbox i (cut.map .data) }

/-- The two ways of cutting lead to one outcome. -/
def SameOutcome (i : ℕ) (s : State) (cut cut' : List Chunk) : Prop :=
  ∃ out, Ends i (s.receiving i cut) out ∧ Ends i (s.receiving i cut') out

theorem Follows.ends {i : ℕ} {s : State} {c d : Session} (h : Follows i c ⟨s, []⟩)
    (hgoes : c.Goes d) (hpc : d.handler.pc = .returned) :
    Ends i s ⟨d.issued, d.log.closed.rtake 10, d.log.pending, d.sent⟩ := by
  apply (h.leads hgoes).trans
  intro o ho
  obtain ⟨⟨es, hholds⟩, hcache⟩ := ho.sees.refines
  refine .here o ⟨?_, ho.issued, hholds.shows.liveCommands, (cacheHolds_bytes _ _ hcache).1,
    ho.sees.sent⟩
  rw [ho.handler, hpc]

section Cut

variable {i : ℕ} {s : State} {closed : List (List UInt8)} {fPos : Option ℤ} {sent : List UInt8}
  {cut : List Chunk} {reply : List UInt8}
  (hfollows : Follows i ⟨.start, cut.map .data, ⟨closed, []⟩, fPos, false, sent, []⟩ ⟨s, []⟩)
  (hline : IsLine (joined cut)) (hsize : (joined cut).length < 2 ^ 64)

include hfollows hline hsize

/-- No request is recognised: the stream becomes a command, and the whole content is
read back. -/
theorem ends_line (hnone : firstRequest cut = none)
    (hreply : Session.Replies (closed ++ [joined cut]) 0 reply) :
    Ends i s ⟨[], (closed ++ [joined cut]).rtake 10, [], sent ++ reply⟩ := by
  obtain ⟨h, hpc, _, hgoes⟩ := Session.goes_line_session closed fPos sent [] hline
    ((firstRequest_eq_none_iff cut).mp hnone) hsize hreply
  exact hfollows.ends hgoes hpc

/-- A request is recognised: the pieces before it stay pending, and the reply is read
from where the request has left the file. -/
theorem ends_request {before : List Chunk} {seekto : Seekto}
    (hsome : firstRequest cut = some (before, seekto))
    (hreply : Session.Replies closed
      (seekPos closed (Session.lastLength 0 before) seekto) reply) :
    Ends i s ⟨[seekto], closed.rtake 10, joined before, sent ++ reply⟩ := by
  obtain ⟨chunk, rest, rfl, hrequest, hseek⟩ := firstRequest_eq_some hsome
  have hplain := plain_of_isLine hline hseek
  rw [joined_append, List.length_append] at hsize
  rw [List.map_append] at hfollows
  have hgoes := Session.goes_request_received (rest.map .data) fPos sent [] closed hplain seekto
    hrequest (by omega)
  exact hfollows.ends (hgoes.trans (hreply _ _ _ _ _ rfl)) rfl

/-- The outcome tells whether a request was recognised, and which. -/
theorem Ends.cases {out : Outcome} (hout : Ends i s out) :
    (firstRequest cut = none ∧ out.issued = []) ∨
      ∃ found reply, firstRequest cut = some found ∧
        out = ⟨[found.2], closed.rtake 10, joined found.1, sent ++ reply⟩ ∧
        Session.IsContent closed (seekPos closed (Session.lastLength 0 found.1) found.2)
          reply := by
  cases hfound : firstRequest cut with
  | none =>
    obtain ⟨reply, hreply, _⟩ := Session.exists_replies (closed ++ [joined cut]) 0
    rw [hout.unique (ends_line hfollows hline hsize hfound hreply)]
    exact Or.inl ⟨rfl, rfl⟩
  | some found =>
    obtain ⟨reply, hreply, hexact⟩ := Session.exists_replies closed
      (seekPos closed (Session.lastLength 0 found.1) found.2)
    rw [hout.unique (ends_request hfollows hline hsize hfound hreply)]
    exact Or.inr ⟨found, reply, rfl, rfl, hexact⟩

end Cut

/-- The check of `aesd_adjust_file_offset`. -/
def Accepts (dev : Dev) (seekto : Seekto) : Prop :=
  seekto.writeCmd < 10 ∧
    seekto.writeCmdOffset ≤ (dev.circularBuffer.slot seekto.writeCmd).size

/-- An accepted request forgets where the file was. -/
theorem seekPos_of_accepts {k : Kernel} {es : List BufferEntry} {cmds : List (List UInt8)}
    (h : Holds k es cmds) {seekto : Seekto} (hacc : Accepts k.dev seekto) (pos pos' : ℤ) :
    seekPos cmds pos seekto = seekPos cmds pos' seekto := by
  have hgood : ¬ (maxWriteOperationsSupported ≤ seekto.writeCmd ∨
      (k.dev.circularBuffer.slot seekto.writeCmd).size < seekto.writeCmdOffset) := by
    obtain ⟨hcmd, hoff⟩ := hacc
    rw [maxWriteOperationsSupported]
    omega
  rw [← h.ioctl_eq, ← h.ioctl_eq, aesdIoctl_seekto, aesdIoctl_seekto, aesdAdjustFileOffset,
    aesdAdjustFileOffset, if_neg Bool.false_ne_true, if_neg Bool.false_ne_true, if_neg hgood,
    if_neg hgood]

/-- A refused request leaves the file where it was. -/
theorem seekPos_of_not_accepts {k : Kernel} {es : List BufferEntry} {cmds : List (List UInt8)}
    (h : Holds k es cmds) {seekto : Seekto} (hacc : ¬ Accepts k.dev seekto) (pos : ℤ) :
    seekPos cmds pos seekto = pos := by
  have hbad : 10 ≤ seekto.writeCmd ∨
      (k.dev.circularBuffer.slot seekto.writeCmd).size < seekto.writeCmdOffset := by
    unfold Accepts at hacc
    omega
  rw [← h.ioctl_eq, aesdIoctl_seekto, (adjust_refused_iff k.dev pos seekto).mpr hbad]

theorem Follows.receiving {i : ℕ} {s : State} {h : Handler} {inbox : List Recv}
    {log : CommandLog} {fPos : Option ℤ} {sent : List UInt8}
    (hfollows : Follows i ⟨h, inbox, log, fPos, false, sent, []⟩ ⟨s, []⟩) (cut : List Chunk) :
    Follows i ⟨h, cut.map .data, log, fPos, false, sent, []⟩ ⟨s.receiving i cut, []⟩ where
  handler := hfollows.handler
  sees := ⟨Function.update_self .., hfollows.sees.refines, hfollows.sees.fits, hfollows.sees.fPos,
    hfollows.sees.locked, hfollows.sees.sent⟩
  issued := rfl

/-- The pieces written before a request do not show in the reply: the device accepts
the request, or the last pieces have the same length, or both lengths are past the
content. -/
def PositionHidden (dev : Dev) (seekto : Seekto) (before before' : List Chunk) : Prop :=
  Accepts dev seekto ∨ Session.lastLength 0 before = Session.lastLength 0 before' ∨
    dev.circularBuffer.liveSizes.sum ≤ Session.lastLength 0 before ∧
      dev.circularBuffer.liveSizes.sum ≤ Session.lastLength 0 before'

theorem exists_same_reply {k : Kernel} {es : List BufferEntry} {closed : List (List UInt8)}
    (h : Holds k es closed) {before before' : List Chunk} {seekto : Seekto}
    (hpos : PositionHidden k.dev seekto before before') :
    ∃ reply,
      Session.Replies closed (seekPos closed (Session.lastLength 0 before) seekto) reply ∧
      Session.Replies closed (seekPos closed (Session.lastLength 0 before') seekto) reply := by
  obtain ⟨reply, hreply, hexact⟩ := Session.exists_replies closed
    (seekPos closed (Session.lastLength 0 before) seekto)
  obtain ⟨reply', hreply', hexact'⟩ := Session.exists_replies closed
    (seekPos closed (Session.lastLength 0 before') seekto)
  by_cases hacc : Accepts k.dev seekto
  · refine ⟨reply, hreply, ?_⟩
    rw [seekPos_of_accepts h hacc _ (Session.lastLength 0 before)]
    exact hreply
  · rcases hpos with hyes | heq | ⟨hpast, hpast'⟩
    · exact absurd hyes hacc
    · refine ⟨reply, hreply, ?_⟩
      rw [← heq]
      exact hreply
    · have hle := Session.lastLength_le before
      have hle' := Session.lastLength_le before'
      rw [h.shows.sum_liveSizes] at hpast hpast'
      have hsmall : Small (closed.rtake 10) := by
        refine ⟨?_, by omega⟩
        intro cmd hcmd
        have hcmd' := (List.sublist_flatten_of_mem hcmd).length_le
        omega
      rw [seekPos_of_not_accepts h hacc] at hexact hexact'
      have hnil := hexact _ rfl (by omega) hsmall
      have hnil' := hexact' _ rfl (by omega) hsmall
      rw [List.drop_eq_nil_of_le hpast] at hnil
      rw [List.drop_eq_nil_of_le hpast'] at hnil'
      rw [hnil] at hreply
      rw [hnil'] at hreply'
      exact ⟨[], hreply, hreply'⟩

/-- On small commands the reply to a refused request shows the position before it. -/
theorem positionHidden_of_reply {k : Kernel} {es : List BufferEntry} {closed : List (List UInt8)}
    (h : Holds k es closed) {before before' : List Chunk} {seekto : Seekto} {reply : List UInt8}
    (hsizes : ∀ n ∈ k.dev.circularBuffer.liveSizes, n ≤ 65536)
    (hreply : Session.IsContent closed
      (seekPos closed (Session.lastLength 0 before) seekto) reply)
    (hreply' : Session.IsContent closed
      (seekPos closed (Session.lastLength 0 before') seekto) reply) :
    PositionHidden k.dev seekto before before' := by
  unfold PositionHidden
  rw [h.shows.liveSizes_eq] at hsizes ⊢
  have hsmall : Small (closed.rtake 10) := by
    apply small_of_le
    · rw [List.rtake, List.length_drop]
      omega
    · intro cmd hcmd
      exact hsizes _ (List.mem_map_of_mem hcmd)
  by_cases hacc : Accepts k.dev seekto
  · exact Or.inl hacc
  · have hle := Session.lastLength_le before
    have hle' := Session.lastLength_le before'
    have hdrop := hreply _ (seekPos_of_not_accepts h hacc _) (by omega) hsmall
    have hdrop' := hreply' _ (seekPos_of_not_accepts h hacc _) (by omega) hsmall
    have hlength := congrArg List.length (hdrop.symm.trans hdrop')
    rw [List.length_drop, List.length_drop, List.length_flatten] at hlength
    omega

end Aesd.Server
