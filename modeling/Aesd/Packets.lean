import Aesd.DeviceCalls
import Aesd.PacketReceive
import Aesd.Runs
import Mathlib.Data.List.Nodup

/-!
Packets of several clients on one device. All threads collect into the same
pending command, so the packets stay whole exactly as long as a thread writes only
while no other thread has written a part of its packet.
-/
namespace Aesd.Server

open Driver

/-- Client `j` has written some of its packet, but not all of it. -/
def MidPacket (s : State) (j : ℕ) : Prop := s.written j ≠ [] ∧ newline ∉ s.written j

/-- Every command that entered the ring is the packet of one client, each client
that has written its packet appears once, and so does each client that returned;
the ring holds the newest ten. -/
def PacketsWhole (packet : ℕ → List UInt8) (s : State) : Prop :=
  ∃ order : List ℕ, order.Nodup ∧ s.entered = order.map packet ∧
    (∀ i, i ∈ order ↔ s.written i = packet i) ∧
    (∀ i, (s.handlers i).pc = .returned → i ∈ order) ∧
    s.kernel.LiveCommands ((order.map packet).rtake 10)

/-- The handler gets its peer's name and its buffer, and a write goes to an open file of
the device, which takes it. -/
@[mk_iff]
structure WritesOpen (s : State) (a : Act) : Prop where
  granted : (s.handlers a.task).pc = .getpeername ∨ (s.handlers a.task).pc = .mallocBuffer →
    a.answer.granted = true
  writes : (s.handlers a.task).pc.isWrite = true → a.answer.Writes
  device : (s.handlers a.task).pc.isWrite = true → s.device.isSome = true

instance (s : State) (a : Act) : Decidable (WritesOpen s a) :=
  decidable_of_iff _ (writesOpen_iff s a).symm

/-- In addition, no other client is in the middle of its packet during a write. -/
structure TakesTurns (s : State) (a : Act) : Prop extends WritesOpen s a where
  turn : (s.handlers a.task).pc.isWrite = true → ∀ j, j ≠ a.task → ¬ MidPacket s j

/-- The pending command belongs to `current`, the only client in the middle of its
packet, and the closed commands are the packets of the clients in `order`. -/
structure Whole (packet : ℕ → List UInt8) (s : State) (order : List ℕ)
    (current : Option ℕ) : Prop where
  progress : ∀ i, Progress (packet i) (s.handlers i) (s.inbox i) (s.written i)
  nodup : order.Nodup
  finished : ∀ i, i ∈ order ↔ newline ∈ s.written i
  entered : s.entered = order.map packet
  current_iff : ∀ i, MidPacket s i ↔ current = some i
  refines : Refines s.kernel ⟨order.map packet, (current.map s.written).getD []⟩

namespace Whole

variable {packet : ℕ → List UInt8} {s : State} {order : List ℕ} {current : Option ℕ}

theorem init (inbox : ℕ → List Recv) (chunks : ℕ → List Chunk)
    (hinbox : ∀ i, inbox i = (chunks i).map .data) (hjoined : ∀ i, joined (chunks i) = packet i) :
    Whole packet (init inbox) [] none where
  progress i := by
    show Progress (packet i) .start (inbox i) []
    rw [hinbox]
    exact Progress.start (chunks i) (hjoined i)
  nodup := List.nodup_nil
  finished i := by simp [Server.init, initAt]
  entered := rfl
  current_iff i := by simp [MidPacket, Server.init, initAt]
  refines := refines_init

theorem packetsWhole (h : Whole packet s order current) (hpacket : ∀ i, IsPacket (packet i)) :
    PacketsWhole packet s := by
  refine ⟨order, h.nodup, h.entered, ?_, ?_, ?_⟩
  · intro i
    rw [h.finished, (h.progress i).written_eq (hpacket i)]
  · intro i hpc
    rw [h.finished, (h.progress i).finished (Or.inr hpc)]
    exact (hpacket i).newline_mem
  · obtain ⟨es, hholds⟩ := h.refines.1
    exact hholds.shows.liveCommands

/-- The pending bytes when client `i` is about to write are those of client `i`. -/
theorem pending_eq (h : Whole packet s order current) (i : ℕ)
    (hturn : ∀ j, j ≠ i → ¬ MidPacket s j) (hnot : newline ∉ s.written i) :
    (current.map s.written).getD [] = s.written i := by
  cases current with
  | none =>
    by_contra hne
    have hmid : MidPacket s i := ⟨fun hnil => hne hnil.symm, hnot⟩
    cases (h.current_iff i).mp hmid
  | some j =>
    have hmid : MidPacket s j := (h.current_iff j).mpr rfl
    by_cases hji : j = i
    · rw [hji]
      rfl
    · exact absurd hmid (hturn j hji)

section Step

variable {t : State} {i : ℕ} {answer : Answer} {result : Result}
  (h : Whole packet s order current)
  (hhandlers : t.handlers = Function.update s.handlers i ((s.handlers i).resume result))

include h hhandlers

/-- The other clients see nothing of a call of thread `i`. -/
theorem progress_update
    (hothers : ∀ j, j ≠ i → t.inbox j = s.inbox j ∧ t.written j = s.written j)
    (hself : Progress (packet i) ((s.handlers i).resume result) (t.inbox i) (t.written i))
    (j : ℕ) : Progress (packet j) (t.handlers j) (t.inbox j) (t.written j) := by
  rw [hhandlers]
  by_cases hj : j = i
  · subst hj
    rw [Function.update_self]
    exact hself
  · rw [Function.update_of_ne hj, (hothers j hj).1, (hothers j hj).2]
    exact h.progress j

theorem idle (hkernel : t.kernel = s.kernel) (hwritten : t.written = s.written)
    (hentered : t.entered = s.entered) (hinbox : ∀ j, j ≠ i → t.inbox j = s.inbox j)
    (hself : Progress (packet i) ((s.handlers i).resume result) (t.inbox i) (s.written i)) :
    Whole packet t order current where
  progress := h.progress_update hhandlers
    (fun j hj => ⟨hinbox j hj, congrFun hwritten j⟩) (hwritten ▸ hself)
  nodup := h.nodup
  finished j := by rw [hwritten]; exact h.finished j
  entered := hentered.trans h.entered
  current_iff j := by
    rw [MidPacket, hwritten]
    exact h.current_iff j
  refines := by
    rw [hkernel, hwritten]
    exact h.refines

variable {data : List UInt8} (hinbox : t.inbox = s.inbox)
  (hwritten : t.written = Function.update s.written i (s.written i ++ data))
  (hturn : ∀ j, j ≠ i → ¬ MidPacket s j) (hne : data ≠ [])
  (hself : Progress (packet i) ((s.handlers i).resume result) (s.inbox i) (s.written i ++ data))

include hinbox hwritten hself

theorem progress_written (j : ℕ) :
    Progress (packet j) (t.handlers j) (t.inbox j) (t.written j) := by
  apply h.progress_update hhandlers
  · intro j hj
    rw [hinbox, hwritten, Function.update_of_ne hj]
    exact ⟨rfl, rfl⟩
  · rw [hinbox, hwritten, Function.update_self]
    exact hself

include hturn

theorem closing (hnot : newline ∉ s.written i) (hmem : newline ∈ data)
    (hwhole : s.written i ++ data = packet i)
    (hentered : t.entered = s.entered ++ [s.written i ++ data])
    (hrefines : Refines t.kernel ⟨order.map packet ++ [s.written i ++ data], []⟩) :
    Whole packet t (order ++ [i]) none where
  progress := h.progress_written hhandlers hinbox hwritten hself
  nodup := by
    rw [← List.concat_eq_append]
    exact List.Nodup.concat (fun hi => hnot ((h.finished i).mp hi)) h.nodup
  finished j := by
    rw [hwritten]
    by_cases hj : j = i
    · subst hj
      simp [hmem]
    · rw [Function.update_of_ne hj, ← h.finished]
      simp [hj]
  entered := by
    rw [hentered, h.entered, hwhole, List.map_append, List.map_singleton]
  current_iff j := by
    rw [MidPacket, hwritten]
    by_cases hj : j = i
    · subst hj
      simp [hmem]
    · rw [Function.update_of_ne hj]
      exact iff_of_false (hturn j hj) (by simp)
  refines := by
    rw [List.map_append, List.map_singleton, ← hwhole]
    exact hrefines

include hne

theorem collecting (hnot : newline ∉ s.written i) (hmem : newline ∉ data)
    (hentered : t.entered = s.entered)
    (hrefines : Refines t.kernel ⟨order.map packet, s.written i ++ data⟩) :
    Whole packet t order (some i) where
  progress := h.progress_written hhandlers hinbox hwritten hself
  nodup := h.nodup
  finished j := by
    rw [hwritten]
    by_cases hj : j = i
    · subst hj
      rw [Function.update_self, h.finished]
      simp [hmem]
    · rw [Function.update_of_ne hj]
      exact h.finished j
  entered := hentered.trans h.entered
  current_iff j := by
    rw [MidPacket, hwritten]
    by_cases hj : j = i
    · subst hj
      simp [hmem, hnot, hne]
    · rw [Function.update_of_ne hj]
      exact iff_of_false (hturn j hj) (by simp [Ne.symm hj])
  refines := by
    rw [hwritten, Option.map_some, Function.update_self]
    exact hrefines

end Step

theorem step {t : State} {a : Act} (h : Whole packet s order current)
    (hpacket : ∀ i, IsPacket (packet i)) (hok : TakesTurns s a)
    (hstep : step s a = some t) :
    ∃ order' current', Whole packet t order' current' ∧
      (order' = order ∨ order' = order ++ [a.task]) := by
  obtain ⟨call, s', result, hcall, hexec, rfl⟩ := step_eq_some_iff.mp hstep
  have hframe := exec_frame hexec
  have hinbox : ∀ j, j ≠ a.task → s'.inbox j = s.inbox j := fun j hj => (hframe.others j hj).1
  by_cases hwrite : (s.handlers a.task).pc.isWrite = true
  · obtain ⟨n, hpc⟩ := (Pc.isWrite_iff _).mp hwrite
    simp only [Handler.call, hpc, Option.some.injEq] at hcall
    subst hcall
    have hturn := hok.turn hwrite
    obtain ⟨⟨fd, f⟩, hdevice⟩ := Option.isSome_iff_exists.mp (hok.device hwrite)
    obtain ⟨hnot, hne, hself, _, hwhole, hlast⟩ :=
      (h.progress a.task).wrote (hpacket a.task) n hpc result
    have hrefines := h.refines
    rw [h.pending_eq a.task hturn hnot] at hrefines
    obtain ⟨hnext, hwritten, hentered⟩ := exec_write hrefines (hok.writes hwrite) hdevice hne hexec
    rw [CommandLog.append] at hnext
    by_cases hmem : newline ∈ ((s.handlers a.task).buffer.front n).bytes
    · rw [if_pos (hlast.mpr hmem)] at hnext hentered
      exact ⟨_, none, h.closing rfl (hframe.inbox (by simp)) hwritten hturn hself hnot hmem
        (hwhole hmem) hentered hnext, Or.inr rfl⟩
    · rw [if_neg (fun hend => hmem (hlast.mp hend))] at hnext hentered
      exact ⟨_, some a.task, h.collecting rfl (hframe.inbox (by simp)) hwritten hturn hne hself
        hnot hmem (hentered.trans (List.append_nil _)) hnext, Or.inl rfl⟩
  · obtain ⟨hkernel, hwritten, hentered⟩ := hframe.device (by
      intro buf hbuf
      subst hbuf
      exact hwrite (Handler.pc_of_write _ buf hcall))
    refine ⟨order, current, h.idle rfl hkernel hwritten hentered hinbox ?_, Or.inl rfl⟩
    by_cases hrecv : (s.handlers a.task).pc = .recv
    · simp only [Handler.call, hrecv, Option.some.injEq] at hcall
      subst hcall
      obtain ⟨chunk, rest, hhead, _, _, hnext⟩ :=
        (h.progress a.task).received (hpacket a.task) hrecv
      simp only [exec, hhead, Option.some.injEq, Prod.mk.injEq] at hexec
      obtain ⟨rfl, rfl⟩ := hexec
      simpa [State.resumed] using hnext
    · have hsame : s'.inbox = s.inbox := hframe.inbox (by
        intro hc
        subst hc
        exact hrecv (Handler.pc_of_recv _ hcall))
      rw [show (s.resumed s' a.task result).inbox = s.inbox from hsame]
      apply (h.progress a.task).other result hrecv (fun n hn => hwrite (by rw [hn, Pc.isWrite]))
      intro hpc
      have hkind : call = .getpeername ∨ call = .malloc := by
        rcases hpc with hpc | hpc
        · simp only [Handler.call, hpc, Option.some.injEq] at hcall
          exact Or.inl hcall.symm
        · simp only [Handler.call, hpc, Option.some.injEq] at hcall
          exact Or.inr hcall.symm
      cases (exec_granted s a.task (hok.granted hpc) hkind).symm.trans hexec
      rfl

/-- A thread inside its receive loop can always go on. -/
theorem goes_on {a : Act} (h : Whole packet s order current)
    (hpacket : ∀ i, IsPacket (packet i)) (hok : TakesTurns s a)
    (hlen : (packet a.task).length < 2 ^ 64)
    (hpc : (s.handlers a.task).pc = .recv ∨ (s.handlers a.task).pc.isWrite = true) :
    ∃ t, Server.step s a = some t := by
  simp only [step_eq_some_iff]
  rcases hpc with hrecv | hwrite
  · obtain ⟨chunk, rest, hhead, _⟩ := (h.progress a.task).received (hpacket a.task) hrecv
    have hexec : exec s a.task a.answer .recv = some
        ({ s with inbox := Function.update s.inbox a.task rest }, .recv (.data chunk)) := by
      simp only [exec, hhead]
    exact ⟨_, .recv, _, _, by rw [Handler.call, hrecv], hexec, rfl⟩
  · obtain ⟨n, hpc⟩ := (Pc.isWrite_iff _).mp hwrite
    obtain ⟨⟨fd, f⟩, hdevice⟩ := Option.isSome_iff_exists.mp (hok.device hwrite)
    obtain ⟨hnot, hne, _, hle, _, _⟩ :=
      (h.progress a.task).wrote (hpacket a.task) n hpc .ok
    have hrefines := h.refines
    rw [h.pending_eq a.task (hok.turn hwrite) hnot] at hrefines
    rw [List.length_append] at hle
    obtain ⟨t, ht⟩ := exec_write_defined hrefines (hok.writes hwrite) hdevice hne
      (show (s.written a.task).length + _ < 2 ^ 64 by omega)
    exact ⟨_, _, t, .ok, by rw [Handler.call, hpc], ht, rfl⟩

end Whole

/-- For every segmentation and every interleaving in which a thread writes only
while no other client is in the middle of its packet, the packets stay whole, and
no thread is stuck in its receive loop. -/
theorem packets_whole_of_turns (packet : ℕ → List UInt8) (chunks : ℕ → List Chunk)
    (hpacket : ∀ i, IsPacket (packet i)) (hjoined : ∀ i, joined (chunks i) = packet i)
    (acts : List Act) (s : State)
    (hmeets : Runs.Meets step TakesTurns (init (fun i => (chunks i).map .data)) acts)
    (hrun : Runs.run step (init (fun i => (chunks i).map .data)) acts = some s) :
    PacketsWhole packet s ∧
      ∀ a, TakesTurns s a → (packet a.task).length < 2 ^ 64 →
        (s.handlers a.task).pc = .recv ∨ (s.handlers a.task).pc.isWrite = true →
        ∃ t, step s a = some t := by
  have hwhole : ∃ order current, Whole packet s order current := by
    refine Runs.run_invariant (fun u => ∃ order current, Whole packet u order current)
      TakesTurns ⟨[], none, Whole.init _ chunks (fun _ => rfl) hjoined⟩ ?_ acts hmeets hrun
    intro u a v hu hok hstep
    obtain ⟨order, current, hu⟩ := hu
    obtain ⟨order', current', hv, _⟩ := hu.step hpacket hok hstep
    exact ⟨order', current', hv⟩
  obtain ⟨order, current, hwhole⟩ := hwhole
  exact ⟨hwhole.packetsWhole hpacket,
    fun a hok hlen hpc => hwhole.goes_on hpacket hok hlen hpc⟩

/-- Threads that take no step write nothing. -/
theorem written_of_others (inbox : ℕ → List Recv) (i : ℕ) (acts : List Act) (s : State)
    (htask : ∀ a ∈ acts, a.task = i) (hrun : Runs.run step (init inbox) acts = some s) (j : ℕ)
    (hj : j ≠ i) : s.written j = [] := by
  refine Runs.run_invariant (fun u => u.written j = []) (fun _ a => a.task = i) rfl ?_ acts ?_
    hrun
  · intro u a v hu ha hstep
    obtain ⟨call, u', result, _, hexec, rfl⟩ := step_eq_some_iff.mp hstep
    exact ((exec_frame hexec).others j (ha ▸ hj)).2.1.trans hu
  · intro done a rest u hacts _
    exact htask a (by simp [hacts])

/-- The line "ab" in two pieces from client 0, the line "c" from all others. -/
def samplePacket (i : ℕ) : List UInt8 := if i = 0 then [97, 98, newline] else [99, newline]

def sampleChunks (i : ℕ) : List Chunk :=
  if i = 0 then [⟨[97], by decide, by decide⟩, ⟨[98, newline], by decide, by decide⟩]
  else [⟨[99, newline], by decide, by decide⟩]

theorem samplePacket_isPacket (i : ℕ) : IsPacket (samplePacket i) := by
  unfold samplePacket
  split
  · exact ⟨by decide, by decide, by decide⟩
  · exact ⟨by decide, by decide, by decide⟩

theorem joined_sampleChunks (i : ℕ) : joined (sampleChunks i) = samplePacket i := by
  unfold sampleChunks samplePacket
  split
  · rfl
  · rfl

/-- One client writes its packet in two pieces. -/
theorem packets_whole_one_client :
    ∃ s, Runs.run step (init (fun i => (sampleChunks i).map .data))
        (List.replicate 7 ⟨0, .granting 0⟩) = some s ∧
      s.entered = [[97, 98, newline]] ∧ PacketsWhole samplePacket s := by
  have hvals : (Runs.run step (init (fun i => (sampleChunks i).map .data))
      (List.replicate 7 ⟨0, .granting 0⟩)).map State.entered = some [[97, 98, newline]] := by
    decide +kernel
  obtain ⟨s, hs, hentered⟩ := Option.map_eq_some_iff.mp hvals
  have hopen : Runs.Meets step WritesOpen (init (fun i => (sampleChunks i).map .data))
      (List.replicate 7 ⟨0, .granting 0⟩) := by decide +kernel
  have hmeets : Runs.Meets step TakesTurns (init (fun i => (sampleChunks i).map .data))
      (List.replicate 7 ⟨0, .granting 0⟩) := by
    intro done a rest u hacts hu
    have htask : ∀ b ∈ done ++ a :: rest, b.task = 0 := by
      intro b hb
      rw [← hacts] at hb
      rw [List.eq_of_mem_replicate hb]
    refine ⟨hopen done a rest u hacts hu, ?_⟩
    intro _ j hj hmid
    rw [htask a (by simp)] at hj
    exact hmid.1 (written_of_others _ 0 done u (fun b hb => htask b (by simp [hb])) hu j hj)
  exact ⟨s, hs, hentered, (packets_whole_of_turns _ _ samplePacket_isPacket
    joined_sampleChunks _ s hmeets hs).1⟩

/-- Client 0 has written "a" when client 1 writes its line "c": the command that
enters the ring is "ac", and every write went to an open file of the device. -/
theorem packets_mixed :
    ∃ acts s, Runs.Meets step WritesOpen (init (fun i => (sampleChunks i).map .data)) acts ∧
      Runs.run step (init (fun i => (sampleChunks i).map .data)) acts = some s ∧
      s.entered = [[97, 99, newline]] ∧ ¬ PacketsWhole samplePacket s := by
  have hvals : (Runs.run step (init (fun i => (sampleChunks i).map .data))
      (List.replicate 5 ⟨0, .granting 0⟩ ++ List.replicate 5 ⟨1, .granting 0⟩)).map
        State.entered = some [[97, 99, newline]] := by decide +kernel
  obtain ⟨s, hs, hentered⟩ := Option.map_eq_some_iff.mp hvals
  refine ⟨_, s, by decide +kernel, hs, hentered, ?_⟩
  intro hwhole
  obtain ⟨order, _, hmap, _⟩ := hwhole
  rw [hentered] at hmap
  obtain ⟨i, hi, hi'⟩ := List.mem_map.mp (hmap ▸ List.mem_singleton_self _)
  unfold samplePacket at hi'
  split at hi' <;> simp at hi'

end Aesd.Server
