import Aesd.SessionOutcome

/-!
How the stream of a client is cut into `recv` results decides what the server takes it for.
Every piece is searched on its own for a seek request, so a request that is cut is not
recognised or read with fewer digits. Two ways of cutting have the same effect exactly if
they hand the same on to the device.
-/
namespace Aesd.Server

open Driver Runs

/-- The two ways of cutting hand the same on to the device: no request, or the same one
after the same bytes, and the position before it does not show. -/
def SameRecognition (dev : Dev) (cut cut' : List Chunk) : Prop :=
  match firstRequest cut, firstRequest cut' with
  | none, none => True
  | some found, some found' =>
      found.2 = found'.2 ∧ joined found.1 = joined found'.1 ∧
        PositionHidden dev found.2 found.1 found'.1
  | _, _ => False

section TwoCuts

variable {i : ℕ} {s : State} (h : Connects i s) {cut cut' : List Chunk}
  (hline : IsLine (joined cut)) (hsize : (joined cut).length < 2 ^ 64)
  (hstream : joined cut' = joined cut)

include h hline hsize

/-- Every session ends. -/
theorem exists_ends : ∃ out, Ends i (s.receiving i cut) out := by
  obtain ⟨closed, fPos, hfollows⟩ := h.follows
  cases hfound : firstRequest cut with
  | none =>
    obtain ⟨reply, hreply, _⟩ := Session.exists_replies (closed ++ [joined cut]) 0
    exact ⟨_, ends_line (hfollows.receiving cut) hline hsize hfound hreply⟩
  | some found =>
    obtain ⟨reply, hreply, _⟩ := Session.exists_replies closed
      (seekPos closed (Session.lastLength 0 found.1) found.2)
    exact ⟨_, ends_request (hfollows.receiving cut) hline hsize hfound hreply⟩

/-- A session issues the first request found in a piece, and no other. -/
theorem issued_of_ends {out : Outcome} (hout : Ends i (s.receiving i cut) out) :
    out.issued = ((firstRequest cut).map Prod.snd).toList := by
  obtain ⟨closed, fPos, hfollows⟩ := h.follows
  rcases hout.cases (hfollows.receiving cut) hline hsize with
    ⟨hfound, hissued⟩ | ⟨found, reply, hfound, heq, _⟩
  · rw [hfound, hissued]
    rfl
  · rw [hfound, heq]
    rfl

include hstream

/-- If both cuts hand the same on to the device, the sessions end the same. -/
theorem sameOutcome_of_recognition (hsame : SameRecognition s.kernel.dev cut cut') :
    SameOutcome i s cut cut' := by
  obtain ⟨closed, fPos, hfollows⟩ := h.follows
  obtain ⟨es, hholds⟩ : ∃ es, Holds s.kernel es closed := hfollows.sees.refines.1
  have hline' : IsLine (joined cut') := hstream ▸ hline
  have hsize' : (joined cut').length < 2 ^ 64 := hstream ▸ hsize
  unfold SameRecognition at hsame
  split at hsame
  · rename_i hfound hfound'
    obtain ⟨reply, hreply, _⟩ := Session.exists_replies (closed ++ [joined cut]) 0
    refine ⟨_, ends_line (hfollows.receiving cut) hline hsize hfound hreply, ?_⟩
    rw [← hstream] at hreply ⊢
    exact ends_line (hfollows.receiving cut') hline' hsize' hfound' hreply
  · rename_i found found' hfound hfound'
    obtain ⟨hseekto, hbefore, hpos⟩ := hsame
    obtain ⟨reply, hreply, hreply'⟩ := exists_same_reply hholds hpos
    rw [hseekto] at hreply'
    refine ⟨_, ends_request (hfollows.receiving cut) hline hsize hfound hreply, ?_⟩
    rw [hseekto, hbefore]
    exact ends_request (hfollows.receiving cut') hline' hsize' hfound' hreply'
  · exact hsame.elim

/-- On a device without a command longer than 65536 bytes, nothing else makes the
sessions end the same. -/
theorem recognition_of_sameOutcome
    (hsmall : ∀ n ∈ s.kernel.dev.circularBuffer.liveSizes, n ≤ 65536)
    (hsame : SameOutcome i s cut cut') : SameRecognition s.kernel.dev cut cut' := by
  obtain ⟨closed, fPos, hfollows⟩ := h.follows
  obtain ⟨es, hholds⟩ : ∃ es, Holds s.kernel es closed := hfollows.sees.refines.1
  have hline' : IsLine (joined cut') := hstream ▸ hline
  have hsize' : (joined cut').length < 2 ^ 64 := hstream ▸ hsize
  obtain ⟨out, hout, hout'⟩ := hsame
  unfold SameRecognition
  rcases hout.cases (hfollows.receiving cut) hline hsize with
    ⟨hfound, hissued⟩ | ⟨found, reply, hfound, heq, hexact⟩
  · rcases hout'.cases (hfollows.receiving cut') hline' hsize' with
      ⟨hfound', _⟩ | ⟨found', reply', hfound', heq', _⟩
    · simp only [hfound, hfound']
    · simp [heq'] at hissued
  · rcases hout'.cases (hfollows.receiving cut') hline' hsize' with
      ⟨hfound', hissued'⟩ | ⟨found', reply', hfound', heq', hexact'⟩
    · simp [heq] at hissued'
    · rw [heq] at heq'
      simp only [Outcome.mk.injEq, List.cons.injEq, and_true, List.append_cancel_left_eq,
        true_and] at heq'
      obtain ⟨hseekto, hbefore, hsent⟩ := heq'
      simp only [hfound, hfound']
      refine ⟨hseekto, hbefore, ?_⟩
      rw [← hseekto, ← hsent] at hexact'
      exact positionHidden_of_reply hholds hsmall hexact hexact'

end TwoCuts

/-- Requests that no device refuses unless it is empty: offset 0 in any slot, and
offset 1 in slot 0, since a command has at least one byte and the check lets its end
through. -/
def NeverRefused (seekto : Seekto) : Prop :=
  seekto.writeCmd < 10 ∧
    (seekto.writeCmdOffset = 0 ∨ seekto.writeCmd = 0 ∧ seekto.writeCmdOffset = 1)

/-- The two ways of cutting hand the same on to every device. -/
def SameRequest (cut cut' : List Chunk) : Prop :=
  match firstRequest cut, firstRequest cut' with
  | none, none => True
  | some found, some found' =>
      found.2 = found'.2 ∧ joined found.1 = joined found'.1 ∧
        (NeverRefused found.2 ∨
          Session.lastLength 0 found.1 = Session.lastLength 0 found'.1)
  | _, _ => False

/-- A request of this kind is accepted, or the device is empty. -/
theorem accepts_of_neverRefused {k : Kernel} {es : List BufferEntry}
    {closed : List (List UInt8)} (h : Holds k es closed) {seekto : Seekto}
    (hnever : NeverRefused seekto) :
    Accepts k.dev seekto ∨ k.dev.circularBuffer.liveSizes.sum = 0 := by
  obtain ⟨hcmd, hzero | ⟨hslot, hone⟩⟩ := hnever
  · exact Or.inl ⟨hcmd, by omega⟩
  · by_cases hempty : closed.rtake 10 = []
    · right
      rw [h.shows.sum_liveSizes, hempty]
      rfl
    · left
      obtain ⟨c, hc, p, hentry, _⟩ := h.slot_live 0 (List.length_pos_iff.mpr hempty)
      have hne := h.nonempty c (List.mem_of_mem_drop hc)
      refine ⟨hcmd, ?_⟩
      rw [hslot, hone, hentry]
      exact List.length_pos_iff.mpr hne

theorem SameRequest.recognition {i : ℕ} {s : State} (h : Connects i s) {cut cut' : List Chunk}
    (hsame : SameRequest cut cut') : SameRecognition s.kernel.dev cut cut' := by
  obtain ⟨closed, _, hfollows⟩ := h.follows
  obtain ⟨es, hholds⟩ : ∃ es, Holds s.kernel es closed := hfollows.sees.refines.1
  unfold SameRequest at hsame
  unfold SameRecognition
  split at hsame
  · trivial
  · obtain ⟨hseekto, hbefore, hpos⟩ := hsame
    refine ⟨hseekto, hbefore, ?_⟩
    rcases hpos with hnever | heq
    · rcases accepts_of_neverRefused hholds hnever with hacc | hzero
      · exact Or.inl hacc
      · exact Or.inr (Or.inr (by omega))
    · exact Or.inr (Or.inl heq)
  · exact hsame.elim

/-- A state in which client `i` connects to a device with the given commands. -/
theorem exists_connects (i : ℕ) (cmds : List (List UInt8))
    (hlines : ∀ cmd ∈ cmds, cmd.getLast? = some newline ∧ cmd.length < 2 ^ 63) :
    ∃ s es, Connects i s ∧ Holds s.kernel es cmds := by
  obtain ⟨calls, k, hrun, ⟨es, hholds⟩, hcache⟩ := exists_device cmds hlines
  refine ⟨{ init (fun _ => []) with kernel := k }, es, ⟨⟨calls, hrun⟩, ?_, rfl, rfl⟩, hholds⟩
  rcases hcache with ⟨_, hentry⟩ | ⟨hne, _⟩
  · rw [hentry]
  · exact absurd rfl hne

/-- A command of 1025 bytes: longer than every piece. -/
def longLine : List UInt8 := List.replicate 1024 97 ++ [newline]

theorem longLine_length : longLine.length = 1025 := by
  rw [longLine, List.length_append, List.length_replicate, List.length_singleton]

theorem longLine_last : longLine.getLast? = some newline := List.getLast?_concat ..

theorem longLine_fits : longLine.getLast? = some newline ∧ longLine.length < 2 ^ 63 := by
  refine ⟨longLine_last, ?_⟩
  rw [longLine_length]
  decide

/-- The slots of a device with a long command, alone or behind a short one. -/
theorem shape_longLine :
    (∀ j < 10, j ≠ 0 → ((shape [longLine]).slot j).size = 0) ∧
      ((shape [[newline], longLine]).slot 0).size = 1 := by
  simp only [shape, List.map_cons, List.map_nil, longLine_length, List.length_singleton]
  decide

/-- Every other request is refused by a device with a long command. -/
theorem exists_refusing (i : ℕ) (seekto : Seekto) (h : ¬ NeverRefused seekto) :
    ∃ s, Connects i s ∧ ¬ Accepts s.kernel.dev seekto ∧
      1024 < s.kernel.dev.circularBuffer.liveSizes.sum ∧
      ∀ n ∈ s.kernel.dev.circularBuffer.liveSizes, n ≤ 65536 := by
  obtain ⟨hsingle, hdouble⟩ := shape_longLine
  unfold NeverRefused at h
  by_cases hslot : seekto.writeCmd = 0
  · obtain ⟨s, es, hconnects, hholds⟩ := exists_connects i [[newline], longLine] (by
      simpa using longLine_fits)
    have hsizes := hholds.shows.liveSizes_eq
    refine ⟨s, hconnects, ?_, ?_, ?_⟩
    · intro hacc
      have hoff := hacc.2
      rw [hslot, hholds.slot_size 0 (by decide), hdouble] at hoff
      omega
    · rw [hsizes]
      simp [List.rtake, longLine_length]
    · rw [hsizes]
      simp [List.rtake, longLine_length]
  · obtain ⟨s, es, hconnects, hholds⟩ := exists_connects i [longLine] (by
      simpa using longLine_fits)
    have hsizes := hholds.shows.liveSizes_eq
    refine ⟨s, hconnects, ?_, ?_, ?_⟩
    · intro hacc
      obtain ⟨hcmd, hoff⟩ := hacc
      rw [hholds.slot_size _ hcmd, hsingle _ hcmd hslot] at hoff
      omega
    · rw [hsizes]
      simp [List.rtake, longLine_length]
    · rw [hsizes]
      simp [List.rtake, longLine_length]

/-- For every way of cutting, the session ends. The same line cut in two ways leads to
the same outcome on every device if and only if the same request, or none, is found
after the same bytes, and it is one that no device refuses or the pieces before it
have the same length. -/
theorem segmentation_irrelevant_iff (i : ℕ) (cut cut' : List Chunk)
    (hline : IsLine (joined cut)) (hstream : joined cut' = joined cut)
    (hsize : (joined cut).length < 2 ^ 64) :
    (∀ s, Connects i s → (∃ out, Ends i (s.receiving i cut) out) ∧
      ∃ out, Ends i (s.receiving i cut') out) ∧
      ((∀ s, Connects i s → SameOutcome i s cut cut') ↔ SameRequest cut cut') := by
  constructor
  · intro s h
    exact ⟨exists_ends h hline hsize, exists_ends h (hstream ▸ hline) (hstream ▸ hsize)⟩
  constructor
  · intro hall
    have hempty := recognition_of_sameOutcome (.init (fun _ => []) i) hline hsize hstream
      (by decide) (hall _ (.init _ i))
    unfold SameRecognition at hempty
    unfold SameRequest
    split at hempty
    · trivial
    · rename_i found found' hfound hfound'
      refine ⟨hempty.1, hempty.2.1, ?_⟩
      by_contra hneither
      obtain ⟨hnever, hlength⟩ := not_or.mp hneither
      obtain ⟨s, hconnects, hacc, htotal, hsmall⟩ := exists_refusing i found.2 hnever
      have hsame := recognition_of_sameOutcome hconnects hline hsize hstream hsmall
        (hall s hconnects)
      simp only [SameRecognition, hfound, hfound'] at hsame
      have hle := Session.lastLength_le found.1
      rcases hsame.2.2 with hyes | heq | hpast
      · exact hacc hyes
      · exact hlength heq
      · omega
    · exact hempty.elim
  · intro hsame s h
    exact sameOutcome_of_recognition h hline hsize hstream (hsame.recognition h)

/-- The request "AESDCHAR_IOCSEEKTO:0,0\n" in one piece, cut before its newline, and
cut inside the keyword. -/
def requestWhole : List Chunk := [⟨pattern ++ [48, 44, 48, newline], by decide, by decide⟩]

def requestAndNewline : List Chunk :=
  [⟨pattern ++ [48, 44, 48], by decide, by decide⟩, ⟨[newline], by decide, by decide⟩]

def requestInHalves : List Chunk :=
  [⟨pattern.take 8, by decide, by decide⟩,
    ⟨pattern.drop 8 ++ [48, 44, 48, newline], by decide, by decide⟩]

def seekFirst : Seekto := ⟨0, 0, by decide, by decide⟩

theorem isLine_request : IsLine (joined requestWhole) := ⟨by decide, by decide⟩

/-- What is found in a piece depends on its bytes alone. -/
theorem Buffer.seekto_receive (chunk : Chunk) : (Buffer.zeros.receive chunk).seekto =
    (CString.strstr pattern (CString.ofBuffer chunk.bytes)).bind scanSeekto := by
  rw [Buffer.seekto, Buffer.receive_zeros, CString.ofBuffer_append_zeros]

theorem firstRequest_whole : firstRequest requestWhole = some ([], seekFirst) := by
  apply firstRequest_cons_of_some
  rw [Buffer.seekto_receive]
  decide

/-- Cut before the newline, the request has the same effect. -/
theorem segmentation_before_newline :
    SameOutcome 0 (init (fun _ => [])) requestWhole requestAndNewline := by
  have hfound : firstRequest requestAndNewline = some ([], seekFirst) := by
    apply firstRequest_cons_of_some
    rw [Buffer.seekto_receive]
    decide
  have hsame : SameRequest requestWhole requestAndNewline := by
    rw [SameRequest, firstRequest_whole, hfound]
    exact ⟨rfl, rfl, Or.inr rfl⟩
  exact (segmentation_irrelevant_iff 0 requestWhole requestAndNewline isLine_request (by decide)
    (by decide)).2.mpr hsame _ (.init _ 0)

/-- In one piece the request is issued. Cut inside the keyword it is not: the text
itself becomes a command. -/
theorem segmentation_cuts_keyword :
    IsLine (joined requestWhole) ∧ joined requestInHalves = joined requestWhole ∧
      ∃ out out', Ends 0 ((init (fun _ => [])).receiving 0 requestWhole) out ∧
        Ends 0 ((init (fun _ => [])).receiving 0 requestInHalves) out' ∧
        out.issued = [seekFirst] ∧ out'.issued = [] ∧
        ¬ SameOutcome 0 (init (fun _ => [])) requestWhole requestInHalves := by
  have hstream : joined requestInHalves = joined requestWhole := by decide
  have hnone : firstRequest requestInHalves = none := by
    rw [firstRequest_eq_none_iff]
    simp only [requestInHalves, List.forall_mem_cons, Buffer.seekto_receive]
    exact ⟨by decide, by decide, by simp⟩
  have hconnects : Connects 0 (init (fun _ => [])) := .init _ 0
  obtain ⟨out, hout⟩ := exists_ends hconnects isLine_request (by decide)
  have hline : IsLine (joined requestInHalves) := hstream ▸ isLine_request
  obtain ⟨out', hout'⟩ := exists_ends hconnects hline (by decide)
  have hissued := issued_of_ends hconnects isLine_request (by decide) hout
  have hissued' := issued_of_ends hconnects hline (by decide) hout'
  rw [firstRequest_whole] at hissued
  rw [hnone] at hissued'
  refine ⟨isLine_request, hstream, out, out', hout, hout', hissued, hissued', ?_⟩
  intro hsame
  obtain ⟨both, hboth, hboth'⟩ := hsame
  rw [← hboth.unique hout, hboth'.unique hout', hissued'] at hissued
  cases hissued

end Aesd.Server
