import Aesd.Runs
import Aesd.ThreadPool

/-!
What holds of the threads in `threadfunc` in every order of their steps and whatever fails:
only the thread with the mutex is inside, each thread puts something into the file at most
once, and what it puts there is the front of the package it has received.
-/
namespace Aesd.ThreadFunc

open Driver Receiver

/-- The mutex is with the thread inside, the log has one entry at most for each thread and
none before its `fwrite`, and a thread reads only before the end of the file. -/
structure Guarded (p : Pool) : Prop where
  holder : ∀ i, (p.threads i).pc.inside = true ↔ p.owner = some i
  once : (p.log.map Prod.fst).Nodup
  unlogged : ∀ i, (p.threads i).pc.early = true → ∀ e ∈ p.log, e.1 ≠ i
  reads : ∀ i, (p.threads i).pc = .fread → p.file.eof = false

namespace Guarded

variable {p q : Pool} {i : ℕ} {t : Thread}

theorem start (file : Stream) : Guarded (Pool.start file) where
  holder i := by simp [Pool.start, Pc.inside]
  once := List.nodup_nil
  unlogged i _ := by simp [Pool.start]
  reads i hpc := by cases hpc

/-- Two threads are never inside at once. -/
theorem not_inside (h : Guarded p) {j : ℕ} (hj : j ≠ i) (hin : (p.threads j).pc.inside = true) :
    (p.threads i).pc.inside = false := by
  rw [Bool.eq_false_iff]
  intro hi
  exact hj (Option.some.inj (((h.holder j).mp hin).symm.trans ((h.holder i).mp hi)))

/-- What has to be shown of a step of thread `i`: it touches the file only from inside. -/
theorem set (h : Guarded p) (hthreads : q.threads = Function.update p.threads i t)
    (hinside : t.pc.inside = true ↔ q.owner = some i)
    (howner : ∀ j, j ≠ i → (q.owner = some j ↔ p.owner = some j))
    (honce : (q.log.map Prod.fst).Nodup)
    (hlog : ∃ more, q.log = p.log ++ more ∧ ∀ e ∈ more, e.1 = i)
    (hearly : t.pc.early = true → ∀ e ∈ q.log, e.1 ≠ i)
    (hfile : q.file = p.file ∨ (p.threads i).pc.inside = true)
    (hreads : t.pc = .fread → q.file.eof = false) : Guarded q := by
  obtain ⟨more, hmore, hmine⟩ := hlog
  refine ⟨?_, honce, ?_, ?_⟩
  · intro j
    rw [hthreads]
    by_cases hj : j = i
    · subst hj
      rw [Function.update_self]
      exact hinside
    · rw [Function.update_of_ne hj, howner j hj]
      exact h.holder j
  · intro j
    rw [hthreads]
    by_cases hj : j = i
    · subst hj
      rw [Function.update_self]
      exact hearly
    · rw [Function.update_of_ne hj, hmore]
      intro hpc e he heq
      rcases List.mem_append.mp he with hold | hnew
      · exact h.unlogged j hpc e hold heq
      · exact hj (heq.symm.trans (hmine e hnew))
  · intro j
    rw [hthreads]
    by_cases hj : j = i
    · subst hj
      rw [Function.update_self]
      exact hreads
    · rw [Function.update_of_ne hj]
      intro hpc
      have hout := h.not_inside hj (show (p.threads j).pc.inside = true by rw [hpc]; rfl)
      rw [hfile.resolve_right (by rw [hout]; decide)]
      exact h.reads j hpc

/-- A step that puts nothing into the file. -/
theorem set_quiet (h : Guarded p) (hthreads : q.threads = Function.update p.threads i t)
    (hlog : q.log = p.log) (hinside : t.pc.inside = true ↔ q.owner = some i)
    (howner : ∀ j, j ≠ i → (q.owner = some j ↔ p.owner = some j))
    (hearly : t.pc.early = true → (p.threads i).pc.early = true)
    (hfile : q.file = p.file ∨ (p.threads i).pc.inside = true)
    (hreads : t.pc = .fread → q.file.eof = false) : Guarded q := by
  refine h.set hthreads hinside howner (hlog ▸ h.once) ⟨[], by simp [hlog], by simp⟩ ?_ hfile
    hreads
  rw [hlog]
  exact fun hpc => h.unlogged i (hearly hpc)

theorem step (h : Guarded p) {a : Input} (hstep : p.step a = some q) : Guarded q := by
  have hholder := h.holder a.task
  cases Pool.moves_of_step hstep with
  | failed => exact h
  | received hpc piece =>
    have hinside := (p.threads a.task).receive_inside piece a.outside a.stale
    rw [hpc] at hholder
    refine h.set_quiet rfl rfl ?_ (fun _ _ => Iff.rfl) ?_ (Or.inl rfl) ?_
    · rw [hinside]
      exact hholder
    · intro _
      rw [hpc]
      rfl
    · intro hread
      rw [hread] at hinside
      cases hinside
  | lock hpc hfree =>
    refine h.set_quiet rfl rfl (iff_of_true rfl rfl) ?_ ?_ (Or.inl rfl)
      (fun hread => by cases hread)
    · intro j hj
      rw [hfree]
      simp [Ne.symm hj]
    · intro _
      rw [hpc]
      rfl
  | seekEnd hpc =>
    rw [hpc] at hholder
    refine h.set_quiet rfl rfl hholder (fun _ _ => Iff.rfl) ?_ (Or.inr (by rw [hpc]; rfl))
      (fun hread => by cases hread)
    intro _
    rw [hpc]
    rfl
  | fwrite hpc =>
    rw [hpc] at hholder
    have hnew := h.unlogged a.task (by rw [hpc]; rfl)
    refine h.set rfl hholder (fun _ _ => Iff.rfl) ?_ ⟨_, rfl, by simp⟩
      (fun hearly => by cases hearly) (Or.inr (by rw [hpc]; rfl)) (fun hread => by cases hread)
    rw [List.map_append, List.nodup_append]
    refine ⟨h.once, by simp, ?_⟩
    intro x hx y hy hxy
    obtain ⟨e, he, rfl⟩ := List.mem_map.mp hx
    rw [List.map_singleton, List.mem_singleton] at hy
    exact hnew e he (hxy.trans hy)
  | seekStart hpc =>
    rw [hpc] at hholder
    exact h.set_quiet rfl rfl hholder (fun _ _ => Iff.rfl) (fun hearly => by cases hearly)
      (Or.inr (by rw [hpc]; rfl)) (fun hread => by cases hread)
  | atEnd hpc _ =>
    rw [hpc] at hholder
    exact h.set_quiet rfl rfl hholder (fun _ _ => Iff.rfl) (fun hearly => by cases hearly)
      (Or.inl rfl) (fun hread => by cases hread)
  | notAtEnd hpc heof =>
    rw [hpc] at hholder
    exact h.set_quiet rfl rfl hholder (fun _ _ => Iff.rfl) (fun hearly => by cases hearly)
      (Or.inl rfl) (fun _ => heof)
  | fread hpc =>
    rw [hpc] at hholder
    exact h.set_quiet rfl rfl hholder (fun _ _ => Iff.rfl) (fun hearly => by cases hearly)
      (Or.inr (by rw [hpc]; rfl)) (fun hread => by cases hread)
  | send hpc _ =>
    rw [hpc] at hholder
    exact h.set_quiet rfl rfl hholder (fun _ _ => Iff.rfl) (fun hearly => by cases hearly)
      (Or.inl rfl) (fun hread => by cases hread)
  | unlock hpc =>
    rw [hpc] at hholder
    have hdone := (p.threads a.task).complete.endTurn_done a.stale rfl
    refine h.set_quiet rfl rfl ?_ ?_ ?_ (Or.inl rfl) ?_
    · rw [hdone]
      exact iff_of_false (by decide) (by simp)
    · intro j hj
      rw [hholder.mp rfl]
      simp [Ne.symm hj]
    · rw [hdone]
      exact fun hearly => by cases hearly
    · rw [hdone]
      exact fun hread => by cases hread

end Guarded

/-- A full package: its last byte is a newline. -/
def Ended (bytes : List UInt8) : Prop := bytes.getLast? = some newline

/-- As long as a thread has not stored its package, the buffer holds all it has received,
with room for more before the next `recv`. On its way to the file is a full package, or
nothing: when the stream ends before its first byte, the byte before the buffer decides. -/
def Collects (t : Thread) : Prop :=
  match t.pc with
  | .recv => t.vars.Fits t.received.length initBufferSize ∧ t.vars.package = t.received
  | .lock | .seekEnd | .fwrite =>
      t.vars.Fits t.received.length 0 ∧ t.vars.package = t.received ∧
        (t.received = [] ∨ Ended t.received)
  | .done => True
  | _ => initBufferSize ≤ t.vars.currentMaxSize

/-- `buffer[totalLen - 1]` is the last byte of the package. -/
theorem Receiver.Fits.ended {t : Receiver} {total : ℕ} (h : t.Fits total 0) (outside : UInt8)
    (hlast : t.lastByte outside = newline) : t.package = [] ∨ Ended t.package := by
  have hroom := h.room_le
  have hlength := h.length_eq
  unfold Receiver.lastByte at hlast
  unfold Ended Receiver.package
  split at hlast
  · rename_i hpos
    right
    have hindex : t.totalLen.toNat - 1 = (t.totalLen - 1).toNat := by omega
    have hlt : (t.totalLen - 1).toNat < t.buffer.length := by omega
    rw [List.getElem?_eq_getElem hlt, Option.getD_some] at hlast
    rw [List.getLast?_take, if_neg (by omega), hindex, List.getElem?_eq_getElem hlt, hlast]
    rfl
  · rename_i hpos
    left
    have hzero : t.totalLen.toNat = 0 := by omega
    rw [hzero, List.take_zero]

namespace Collects

theorem receive {t : Thread} (h : Collects t) (hpc : t.pc = .recv) (piece : Piece)
    (outside : UInt8) (stale : ℕ → UInt8)
    (htotal : (t.received ++ piece.bytes).length < 2 ^ 29) :
    Collects (t.receive piece outside stale) := by
  unfold Collects at h
  rw [hpc] at h
  have hlength : (t.received ++ piece.bytes).length = t.received.length + piece.bytes.length :=
    List.length_append
  rw [hlength] at htotal
  obtain ⟨hfits, hpackage⟩ := h
  have hnext := (hfits.receive piece htotal).2
  have hall := hfits.receive_package piece htotal
  rw [hpackage] at hall
  have hgrown := (hnext.noMore piece.bytes.length).grow htotal stale
  have hkept := (hnext.noMore piece.bytes.length).grow_package htotal stale
  rw [← hlength] at hnext hgrown
  simp only [Thread.receive]
  split
  · rename_i hlast
    exact ⟨hnext, hall, hall ▸ hnext.ended outside hlast⟩
  · unfold Collects
    cases hend : (((t.vars.receive piece).noMore piece.bytes.length).grow stale).isCompleted with
    | true =>
      simp only [Thread.endTurn, hend, if_true]
    | false =>
      simp only [Thread.endTurn, hend]
      exact ⟨hgrown, hkept.trans hall⟩

/-- Until the package is in the file, the thread keeps it together. -/
theorem step {p q : Pool} {a : Input} (hstep : p.step a = some q)
    (hall : (p.threads a.task).received.length < 2 ^ 29 → Collects (p.threads a.task))
    (hlt : (q.threads a.task).received.length < 2 ^ 29) : Collects (q.threads a.task) := by
  have hcollects := hall
  unfold Collects at hcollects
  cases Pool.moves_of_step hstep with
  | failed => exact hall hlt
  | received hpc piece =>
    simp only [Pool.set, Function.update_self] at hlt ⊢
    rw [Thread.receive_received] at hlt
    refine (hall ?_).receive hpc piece a.outside a.stale hlt
    rw [List.length_append] at hlt
    omega
  | fwrite hpc =>
    rw [hpc] at hcollects
    simp only [Pool.set, Function.update_self] at hlt ⊢
    exact (hcollects hlt).1.size_ge
  | unlock hpc =>
    simp only [Pool.set, Function.update_self]
    unfold Collects
    rw [(p.threads a.task).complete.endTurn_done a.stale rfl]
    trivial
  | _ hpc =>
    rw [hpc] at hcollects
    simp only [Pool.set, Function.update_self] at hlt ⊢
    exact hcollects hlt

/-- What the thread is about to put into the file. -/
theorem at_fwrite {t : Thread} (h : Collects t) (hpc : t.pc = .fwrite) :
    t.vars.package = t.received ∧ (t.received = [] ∨ Ended t.received) := by
  unfold Collects at h
  rw [hpc] at h
  exact h.2

end Collects

/-- Each entry of the log stands in this relation to what its thread has received. -/
def EntriesMeet (ok : List UInt8 → List UInt8 → Prop) (p : Pool) : Prop :=
  ∀ e ∈ p.log, (p.threads e.1).received.length < 2 ^ 29 → ok e.2 (p.threads e.1).received

/-- An entry that is there stays as it is, since its thread receives nothing any more. -/
theorem EntriesMeet.step {ok : List UInt8 → List UInt8 → Prop} {p q : Pool}
    (h : EntriesMeet ok p) (hguarded : Guarded p) {a : Input} (hstep : p.step a = some q)
    (hnew : (p.threads a.task).pc = .fwrite → (p.threads a.task).received.length < 2 ^ 29 →
      ok ((p.threads a.task).written a.unwritten) (p.threads a.task).received) :
    EntriesMeet ok q := by
  intro e he hlt
  rcases Pool.step_log hstep with ⟨hlog, hreceived⟩ | ⟨hpc, hlog, hreceived⟩
  · rw [hlog] at he
    by_cases hj : e.1 = a.task
    · rcases hreceived with hpc | hreceived
      · exact absurd hj (hguarded.unlogged a.task (by rw [hpc]; rfl) e he)
      · rw [hj, hreceived, ← hj] at hlt ⊢
        exact h e he hlt
    · rw [Pool.step_others hstep hj] at hlt ⊢
      exact h e he hlt
  · rw [hlog] at he
    rcases List.mem_append.mp he with hold | hlast
    · have hj := hguarded.unlogged a.task (by rw [hpc]; rfl) e hold
      rw [Pool.step_others hstep hj] at hlt ⊢
      exact h e hold hlt
    · cases List.mem_singleton.mp hlast
      rw [hreceived] at hlt ⊢
      exact hnew hpc hlt

/-- All that holds in every order of the threads' steps, whatever fails. -/
structure Sound (p : Pool) : Prop where
  guarded : Guarded p
  collects : ∀ i, (p.threads i).received.length < 2 ^ 29 → Collects (p.threads i)
  entries : EntriesMeet
    (fun bytes received => bytes <+: received ∧ (received = [] ∨ Ended received)) p

namespace Sound

theorem start (file : Stream) : Sound (Pool.start file) where
  guarded := .start file
  collects _ _ := ⟨fits_start, rfl⟩
  entries := by
    intro e he
    cases he

theorem step {p q : Pool} (h : Sound p) {a : Input} (hstep : p.step a = some q) : Sound q where
  guarded := h.guarded.step hstep
  collects i := by
    by_cases hi : i = a.task
    · subst hi
      exact Collects.step hstep (h.collects a.task)
    · rw [Pool.step_others hstep hi]
      exact h.collects i
  entries := by
    apply h.entries.step h.guarded hstep
    intro hpc hlt
    obtain ⟨hpackage, hended⟩ := (h.collects a.task hlt).at_fwrite hpc
    refine ⟨?_, hended⟩
    rw [Thread.written, hpackage]
    exact List.take_prefix _ _

theorem of_run (file : Stream) (inputs : List Input) (p : Pool)
    (hrun : Runs.run Pool.step (Pool.start file) inputs = some p) : Sound p :=
  Runs.run_invariant Sound (fun _ _ => True) (.start file) (fun _ _ _ h _ hstep => h.step hstep)
    inputs (fun _ _ _ _ _ _ => trivial) hrun

end Sound

end Aesd.ThreadFunc
