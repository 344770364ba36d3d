import Aesd.SessionStages

/-!
When is a packet complete? The server looks for a newline anywhere in the piece it has
received, the driver only at the last byte of what is written. If bytes follow the
newline in the same piece, the server goes on to read the device back while the
driver keeps the whole packet pending.
-/
namespace Aesd.Server

open Driver Runs

/-- The bytes of a piece up to and including its first newline. -/
def Chunk.firstLine (chunk : Chunk) : List UInt8 :=
  chunk.bytes.takeWhile (fun b => decide (b ≠ newline)) ++ [newline]

/-- The line is part of a command in the ring, and nothing is pending. -/
structure Completed (line : List UInt8) (s : State) : Prop where
  stored : ∃ cmds, s.kernel.LiveCommands cmds ∧ ∃ cmd ∈ cmds, line <:+: cmd
  no_pending : s.kernel.dev.entryCache = ⟨none, 0⟩

theorem Chunk.firstLine_prefix (chunk : Chunk) (h : newline ∈ chunk.bytes) :
    chunk.firstLine <+: chunk.bytes := by
  have hsplit := List.takeWhile_append_dropWhile (l := chunk.bytes)
    (p := fun b => decide (b ≠ newline))
  cases hrest : chunk.bytes.dropWhile (fun b => decide (b ≠ newline)) with
  | nil =>
    have hall := List.dropWhile_eq_nil_iff.mp hrest newline h
    simp at hall
  | cons b rest =>
    have hb := List.head?_dropWhile_not (fun b => decide (b ≠ newline)) chunk.bytes
    rw [hrest] at hb
    simp only [List.head?_cons, decide_eq_false_iff_not, not_not] at hb
    rw [hrest, hb] at hsplit
    exact ⟨rest, by rw [firstLine, List.append_assoc]; exact hsplit⟩

/-- A command log in which the last bytes went to an unfinished command is complete if
and only if they end in a newline. -/
theorem completed_iff_of_refines {s : State} {closed : List (List UInt8)} {pending : List UInt8}
    {chunk : Chunk} (h : Refines s.kernel (CommandLog.append ⟨closed, pending⟩ chunk.bytes))
    (hmem : newline ∈ chunk.bytes) :
    Completed (pending ++ chunk.firstLine) s ↔ chunk.bytes.getLast? = some newline := by
  obtain ⟨⟨es, hholds⟩, hcache⟩ := h
  unfold CommandLog.append at hholds hcache
  constructor
  · intro hcompleted
    by_contra hlast
    rw [if_neg hlast] at hcache
    rcases hcache with ⟨hnil, _⟩ | ⟨_, p, hentry, _⟩
    · exact chunk.ne_nil (List.append_eq_nil_iff.mp hnil).2
    · rw [hcompleted.no_pending] at hentry
      cases hentry
  · intro hlast
    rw [if_pos hlast] at hholds hcache
    constructor
    · refine ⟨_, hholds.shows.liveCommands, pending ++ chunk.bytes, ?_, ?_⟩
      · rw [List.rtake, List.drop_append_of_le_length (by simp)]
        simp
      · exact ((List.prefix_append_right_inj pending).mpr
          (chunk.firstLine_prefix hmem)).isInfix
    · rcases hcache with ⟨_, hentry⟩ | ⟨hne, _⟩
      · exact hentry
      · exact absurd rfl hne

/-- The session up to the first read: the pieces before the newline and the one with
the newline have been written. -/
theorem leads_readBack {i : ℕ} {s : State} (h : Connects i s) (before : List Chunk)
    (chunk : Chunk) (rest : List Recv)
    (hinbox : s.inbox i = before.map .data ++ .data chunk :: rest)
    (hbefore : ∀ c ∈ before, c.Plain) (hmem : newline ∈ chunk.bytes)
    (hseek : (Buffer.zeros.receive chunk).seekto = none)
    (hsize : (joined (before ++ [chunk])).length < 2 ^ 64) :
    ∃ closed, Leads step (Alone i) (fun t => (t.handlers i).pc = .read ∧ t.sent i = s.sent i ∧
      Refines t.kernel (CommandLog.append ⟨closed, joined before⟩ chunk.bytes)) s := by
  obtain ⟨closed, fPos, hfollows⟩ := h.follows
  rw [hinbox] at hfollows
  have hlen : (joined before).length + chunk.bytes.length < 2 ^ 64 := by
    simpa [joined] using hsize
  have hgoes := Session.goes_line_received rest fPos (s.sent i) [] closed hbefore hseek hmem hlen
  refine ⟨closed, Leads.map Observed.state ?_ ((hfollows.leads hgoes).trans ?_)⟩
  · intro o a
    rw [observe, Option.map_map]
    exact Option.map_id'.symm
  · intro o ho
    refine .here o ⟨?_, ho.sees.sent, ho.sees.refines⟩
    rw [ho.handler]

/-- A client has connected to a device without a pending command, all its calls
succeed, and no piece holds the seek text. When it is about to read the device back,
its line is in a completed command and nothing is pending if and only if the piece
with the first newline also ends in a newline. -/
theorem packet_completed_iff (i : ℕ) (s : State) (h : Connects i s) (before : List Chunk)
    (chunk : Chunk) (rest : List Recv)
    (hinbox : s.inbox i = before.map .data ++ .data chunk :: rest)
    (hbefore : ∀ c ∈ before, newline ∉ c.bytes) (hmem : newline ∈ chunk.bytes)
    (htext : ∀ c ∈ before ++ [chunk], ¬ pattern <:+: c.bytes)
    (hsize : (joined (before ++ [chunk])).length < 2 ^ 64) :
    Leads step (Alone i) (fun t => (t.handlers i).pc = .read ∧ t.sent i = s.sent i ∧
      (Completed (joined before ++ chunk.firstLine) t ↔
        chunk.bytes.getLast? = some newline)) s := by
  have hseek : ∀ c ∈ before ++ [chunk], (Buffer.zeros.receive c).seekto = none := by
    intro c hc
    exact Buffer.seekto_eq_none c c.bytes List.infix_rfl (htext c hc)
  have hplain : ∀ c ∈ before, c.Plain := by
    intro c hc
    exact ⟨hbefore c hc, hseek c (List.mem_append_left _ hc)⟩
  obtain ⟨closed, hleads⟩ := leads_readBack h before chunk rest hinbox hplain hmem
    (hseek chunk (by simp)) hsize
  apply hleads.trans
  intro t ht
  obtain ⟨hpc, hsent, hrefines⟩ := ht
  exact .here t ⟨hpc, hsent, completed_iff_of_refines hrefines hmem⟩

theorem Connects.init (inbox : ℕ → List Recv) (i : ℕ) : Connects i (init inbox) :=
  ⟨⟨[], rfl⟩, rfl, rfl, rfl⟩

/-- The packet "ab\n" in two pieces. -/
theorem packet_completed_two_pieces :
    Leads step (Alone 0) (fun t => (t.handlers 0).pc = .read ∧ Completed [97, 98, newline] t)
      (init (fun _ => [.data ⟨[97], by decide, by decide⟩,
        .data ⟨[98, newline], by decide, by decide⟩])) := by
  apply (packet_completed_iff 0 _ (.init _ 0) [⟨[97], by decide, by decide⟩]
    ⟨[98, newline], by decide, by decide⟩ [] rfl (by decide) (by decide) (by decide)
    (by decide)).trans
  intro t ht
  obtain ⟨hpc, _, hiff⟩ := ht
  exact .here t ⟨hpc, hiff.mpr rfl⟩

/-- The piece "a\nb". -/
def innerNewline : Chunk := ⟨[97, newline, 98], by decide, by decide⟩

/-- The server leaves the receive loop with this piece and reads back, but the device
has no such command, and the three bytes stay pending. -/
theorem packet_left_pending :
    newline ∈ innerNewline.bytes ∧ ¬ pattern <:+: innerNewline.bytes ∧
      Leads step (Alone 0) (fun t => (t.handlers 0).pc = .read ∧ t.sent 0 = [] ∧
        t.kernel.bytesOf t.kernel.dev.entryCache = some [97, newline, 98] ∧
        ¬ Completed innerNewline.firstLine t) (init (fun _ => [.data innerNewline])) := by
  have htext : ¬ pattern <:+: innerNewline.bytes := by decide
  refine ⟨by decide, htext, ?_⟩
  obtain ⟨closed, hleads⟩ := leads_readBack (.init (fun _ => [.data innerNewline]) 0) []
    innerNewline [] rfl (by simp) (by decide)
    (Buffer.seekto_eq_none _ _ List.infix_rfl htext) (by decide)
  apply hleads.trans
  intro t ht
  obtain ⟨hpc, hsent, hrefines⟩ := ht
  refine .here t ⟨hpc, hsent, (cacheHolds_bytes t.kernel _ hrefines.2).1, ?_⟩
  intro hcompleted
  have hlast := (completed_iff_of_refines hrefines (by decide)).mp hcompleted
  exact absurd hlast (by decide)

end Aesd.Server
