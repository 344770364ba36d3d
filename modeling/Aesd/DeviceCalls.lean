import Aesd.CommandLog
import Aesd.ServerState

/-!
The calls of the server on a device that refines a command log: a granted write
appends its bytes to the log, and the command that enters the ring with it is the
one that the log closes.
-/
namespace Aesd.Server

open Driver

/-- A write is let through: no signal, a block for the bytes, and all of them copied. -/
@[mk_iff]
structure Answer.Writes (answer : Answer) : Prop where
  interrupted : answer.interrupted = false
  pick : answer.pick ≠ none
  uncopied : answer.uncopied = 0

instance (answer : Answer) : Decidable answer.Writes :=
  decidable_of_iff _ (Answer.writes_iff answer).symm

/-- The environment grants the call in full. -/
@[mk_iff]
structure Answer.Granted (answer : Answer) : Prop extends answer.Writes where
  granted : answer.granted = true
  fd : answer.fd ≠ none
  unsent : answer.unsent = 0

instance (answer : Answer) : Decidable answer.Granted :=
  decidable_of_iff _ (Answer.granted_iff answer).symm

theorem Answer.granting_granted (n : ℕ) : (Answer.granting n).Granted :=
  ⟨⟨rfl, Option.some_ne_none n, rfl⟩, rfl, Option.some_ne_none n, rfl⟩

/-- The calls that do nothing but succeed. -/
theorem exec_granted (s : State) (i : ℕ) {answer : Answer} (h : answer.granted = true)
    {call : Call} (hkind : call = .getpeername ∨ call = .malloc) :
    exec s i answer call = some (s, .ok) := by
  rcases hkind with rfl | rfl
  · simp [exec, h]
  · simp [exec, h]

theorem Answer.Writes.payload {answer : Answer} (h : answer.Writes) (buf : UserBuf)
    (fPos : ℤ) (hne : buf.bytes ≠ []) :
    (answer.writeCall buf fPos).payload = some buf.bytes :=
  payload_eq_some _ buf rfl rfl h.interrupted h.pick hne

/-- What enters the ring is the command that the log closes. -/
theorem newCommand_eq {k k' : Kernel} {log : CommandLog} {data : List UInt8}
    (h : Refines k log) (h' : Refines k' (log.append data)) :
    newCommand k k' =
      if data.getLast? = some newline then some (log.pending ++ data) else none := by
  obtain ⟨⟨es, hholds⟩, _⟩ := h
  obtain ⟨⟨es', hholds'⟩, _⟩ := h'
  have hin : k.dev.circularBuffer.inOffs = es.length % 10 := hholds.tracks.in_eq
  have hin' : k'.dev.circularBuffer.inOffs = es'.length % 10 := hholds'.tracks.in_eq
  have hlen := hholds.length_eq
  have hlen' := hholds'.length_eq
  unfold CommandLog.append at hholds' hlen'
  by_cases hlast : data.getLast? = some newline
  · rw [if_pos hlast] at hholds' hlen' ⊢
    rw [List.length_append, List.length_singleton] at hlen'
    have hlt : log.closed.length < es'.length := by omega
    have hslot : k'.dev.circularBuffer.slot (log.closed.length % 10) =
        es'[log.closed.length] := hholds'.tracks.stored _ hlt (show es'.length ≤ _ + 10 by omega)
    have hstored := hholds'.stored log.closed.length _ (log.pending ++ data) (by omega)
      (List.getElem?_eq_getElem hlt) (by simp)
    have hidx : (k'.dev.circularBuffer.inOffs + 9) % 10 = log.closed.length % 10 := by omega
    rw [newCommand, if_neg (by omega), hidx, hslot]
    exact hstored.bytesOf
  · rw [if_neg hlast] at hlen' ⊢
    have hsame : es'.length = es.length := hlen'.trans hlen.symm
    rw [newCommand, if_pos (by rw [hin, hin', hsame])]

section Write

variable {s : State} {i : ℕ} {answer : Answer} {fd : ℕ} {f : OpenFile} {log : CommandLog}
  {buf : UserBuf} (hrefines : Refines s.kernel log) (hanswer : answer.Writes)
  (hdevice : s.device = some (fd, f)) (hne : buf.bytes ≠ [])

include hrefines hanswer hdevice hne

theorem exec_write {t : State} {result : Result}
    (hexec : exec s i answer (.write buf) = some (t, result)) :
    Refines t.kernel (log.append buf.bytes) ∧
      t.written = Function.update s.written i (s.written i ++ buf.bytes) ∧
      t.entered = s.entered ++
        if buf.bytes.getLast? = some newline then [log.pending ++ buf.bytes] else [] := by
  simp only [exec, State.onDevice, hdevice, Option.map_eq_some_iff] at hexec
  obtain ⟨r, hr, hout⟩ := hexec
  cases hout
  have hnext := ((hrefines.effect _ hanswer.uncopied r hr).1 _
    (hanswer.payload buf f.fPos hne)).2.2
  refine ⟨hnext, rfl, ?_⟩
  have hcommand := newCommand_eq hrefines hnext
  simp only [State.record, hcommand]
  split <;> rfl

theorem exec_write_defined (hfits : log.pending.length + buf.bytes.length < 2 ^ 64) :
    ∃ t, exec s i answer (.write buf) = some (t, .ok) := by
  obtain ⟨r, hr⟩ := hrefines.defined (answer.writeCall buf f.fPos) hanswer.uncopied (by
    intro data hdata
    cases Option.some.inj ((hanswer.payload buf f.fPos hne).symm.trans hdata)
    exact hfits)
  simp only [exec, State.onDevice, hdevice]
  exact ⟨_, Option.map_eq_some_iff.mpr ⟨r, hr, rfl⟩⟩

end Write

end Aesd.Server
