import Aesd.PackageLog

/-!
The threads in `threadfunc` on a file and with clients that take and give everything. The
packages get into the file one after the other, each of them whole, and each client is sent
the file as it was when its own package had just been added.
-/
namespace Aesd.ThreadFunc

open Driver Receiver

/-- The bytes that the threads have put into the file. -/
def logged (log : List (ℕ × List UInt8)) : List UInt8 := (log.map Prod.snd).flatten

theorem logged_append (log more : List (ℕ × List UInt8)) :
    logged (log ++ more) = logged log ++ logged more := by
  simp [logged]

/-- The thread has neither stored nor sent anything. -/
structure Fresh (log : List (ℕ × List UInt8)) (i : ℕ) (t : Thread) : Prop where
  notMem : ∀ e ∈ log, e.1 ≠ i
  stored : t.vars.stored = []
  sent : t.vars.sent = []

/-- The newest bytes in the file are those of the thread. -/
def Newest (log : List (ℕ × List UInt8)) (i : ℕ) (t : Thread) : Prop :=
  ∃ before, log = before ++ [(i, t.vars.stored)]

/-- The thread has been sent the file up to and including its own bytes. -/
def Answered (initial : List UInt8) (log : List (ℕ × List UInt8)) (i : ℕ) (t : Thread) : Prop :=
  ∃ before after, log = before ++ (i, t.vars.stored) :: after ∧
    t.vars.sent = initial ++ logged before ++ t.vars.stored

/-- What holds of thread `i` where it stands. -/
def Stage (initial : List UInt8) (file : Stream) (log : List (ℕ × List UInt8)) (i : ℕ)
    (t : Thread) : Prop :=
  match t.pc with
  | .recv | .lock | .seekEnd => Fresh log i t
  | .fwrite => Fresh log i t ∧ file.pos = file.content.length
  | .seekStart => Newest log i t ∧ t.vars.sent = []
  | .feof | .fread => Newest log i t ∧
      t.vars.sent ++ file.content.drop file.pos = file.content ∧
      (file.eof = true → file.content.length ≤ file.pos)
  | .send => Newest log i t ∧
      t.vars.sent ++ t.vars.buffer.take t.readBytes ++ file.content.drop file.pos =
        file.content ∧
      (file.eof = true → file.content.length ≤ file.pos)
  | .unlock => Newest log i t ∧ t.vars.sent = file.content
  | .done => Fresh log i t ∨ Answered initial log i t

theorem Fresh.append {log : List (ℕ × List UInt8)} {i : ℕ} {t : Thread} (h : Fresh log i t)
    {more : List (ℕ × List UInt8)} (hmore : ∀ e ∈ more, e.1 ≠ i) : Fresh (log ++ more) i t where
  notMem e he := by
    rcases List.mem_append.mp he with hold | hnew
    · exact h.notMem e hold
    · exact hmore e hnew
  stored := h.stored
  sent := h.sent

theorem Fresh.of_vars {log : List (ℕ × List UInt8)} {i : ℕ} {t t' : Thread} (h : Fresh log i t)
    (hstored : t'.vars.stored = t.vars.stored) (hsent : t'.vars.sent = t.vars.sent) :
    Fresh log i t' :=
  ⟨h.notMem, hstored.trans h.stored, hsent.trans h.sent⟩

/-- A thread that is not inside does not depend on the file, and not on what others add
to the log. -/
theorem Stage.append {initial : List UInt8} {file file' : Stream}
    {log more : List (ℕ × List UInt8)} {i : ℕ} {t : Thread} (h : Stage initial file log i t)
    (hpc : t.pc.inside = false) (hmore : ∀ e ∈ more, e.1 ≠ i) :
    Stage initial file' (log ++ more) i t := by
  unfold Stage at h ⊢
  cases hp : t.pc with
  | recv =>
    rw [hp] at h
    exact Fresh.append h hmore
  | lock =>
    rw [hp] at h
    exact Fresh.append h hmore
  | done =>
    rw [hp] at h
    rcases h with hfresh | ⟨before, after, rfl, hsent⟩
    · exact Or.inl (hfresh.append hmore)
    · exact Or.inr ⟨before, after ++ more, by simp, hsent⟩
  | _ =>
    rw [hp] at hpc
    cases hpc

theorem Stage.of_fresh {initial : List UInt8} {file : Stream} {log : List (ℕ × List UInt8)}
    {i : ℕ} {t : Thread} (h : Fresh log i t) (hpc : t.pc.inside = false) :
    Stage initial file log i t := by
  unfold Stage
  cases hp : t.pc with
  | recv => exact h
  | lock => exact h
  | done => exact Or.inl h
  | _ =>
    rw [hp] at hpc
    cases hpc

/-- Reading moves bytes from the rest of the file into the buffer. -/
theorem Stream.next_append_drop (f : Stream) (size : ℕ) :
    f.next size none ++ (f.fread size none).content.drop (f.fread size none).pos =
      f.content.drop f.pos := by
  have hdrop : (f.fread size none).content.drop (f.fread size none).pos =
      (f.content.drop f.pos).drop (f.next size none).length := by
    rw [List.drop_drop]
    rfl
  rw [hdrop, Stream.next, List.length_take]
  rcases Nat.le_total size (f.content.drop f.pos).length with hle | hle
  · rw [Nat.min_eq_left hle, List.take_append_drop]
  · rw [Nat.min_eq_right hle, List.take_of_length_le hle, List.drop_length, List.append_nil]

/-- A read that delivers less than asked for has come to the end. -/
theorem Stream.le_pos_of_short (f : Stream) (size : ℕ) (h : (f.next size none).length < size) :
    f.content.length ≤ (f.fread size none).pos := by
  rw [Stream.next, List.length_take, List.length_drop] at h
  change _ ≤ f.pos + (f.next size none).length
  rw [Stream.next, List.length_take, List.length_drop]
  omega

/-- What holds of the pool as long as no call has failed or been short. -/
structure Orderly (initial : List UInt8) (p : Pool) : Prop where
  sound : Sound p
  content : p.file.content = initial ++ logged p.log
  whole : EntriesMeet Eq p
  stage : ∀ i, Stage initial p.file p.log i (p.threads i)

namespace Orderly

variable {initial : List UInt8} {p q : Pool} {t : Thread} {a : Input}

theorem start (file : Stream) : Orderly file.content (Pool.start file) where
  sound := .start file
  content := by simp [Pool.start, logged]
  whole := by
    intro e he
    cases he
  stage i := ⟨by simp [Pool.start], rfl, rfl⟩

theorem step_whole (h : Orderly initial p) (hfull : a.Full) (hstep : p.step a = some q) :
    EntriesMeet Eq q := by
  apply h.whole.step h.sound.guarded hstep
  intro hpc hlt
  rw [Thread.written, hfull.unwritten, Nat.sub_zero, List.take_length]
  exact ((h.sound.collects a.task hlt).at_fwrite hpc).1

/-- What has to be shown of a step: the file is touched only from inside, and the log grows
only by entries of the thread itself. -/
theorem set (h : Orderly initial p) (hfull : a.Full) (hstep : p.step a = some q)
    (hthreads : q.threads = Function.update p.threads a.task t)
    (hcontent : q.file.content = initial ++ logged q.log)
    (hlog : ∃ more, q.log = p.log ++ more ∧ ∀ e ∈ more, e.1 = a.task)
    (hquiet : q.file = p.file ∧ q.log = p.log ∨ (p.threads a.task).pc.inside = true)
    (hstage : Stage initial q.file q.log a.task t) : Orderly initial q := by
  obtain ⟨more, hmore, hmine⟩ := hlog
  refine ⟨h.sound.step hstep, hcontent, h.step_whole hfull hstep, ?_⟩
  intro j
  rw [hthreads]
  by_cases hj : j = a.task
  · subst hj
    rw [Function.update_self]
    exact hstage
  · rw [Function.update_of_ne hj]
    by_cases hin : (p.threads j).pc.inside = true
    · have hout := h.sound.guarded.not_inside hj hin
      obtain ⟨hfile, hsame⟩ := hquiet.resolve_right (by rw [hout]; decide)
      rw [hfile, hsame]
      exact h.stage j
    · rw [hmore]
      exact (h.stage j).append (Bool.eq_false_iff.mpr hin)
        (fun e he heq => hj (heq.symm.trans (hmine e he)))

/-- A step that writes nothing into the file. -/
theorem set_quiet (h : Orderly initial p) (hfull : a.Full) (hstep : p.step a = some q)
    (hthreads : q.threads = Function.update p.threads a.task t) (hlog : q.log = p.log)
    (hcontent : q.file.content = p.file.content)
    (hquiet : q.file = p.file ∨ (p.threads a.task).pc.inside = true)
    (hstage : Stage initial q.file q.log a.task t) : Orderly initial q := by
  refine h.set hfull hstep hthreads (by rw [hcontent, hlog]; exact h.content)
    ⟨[], by simp [hlog], by simp⟩ ?_ hstage
  exact hquiet.imp (fun hfile => ⟨hfile, hlog⟩) id

theorem step (h : Orderly initial p) (hfull : a.Full) (hstep : p.step a = some q) :
    Orderly initial q := by
  have hstage := h.stage a.task
  unfold Stage at hstage
  cases Pool.moves_of_step hstep with
  | failed => exact h
  | received hpc piece =>
    rw [hpc] at hstage
    obtain ⟨_, hstored, hsent⟩ := (p.threads a.task).receive_effect piece a.outside a.stale
    exact h.set_quiet hfull hstep rfl rfl rfl (Or.inl rfl)
      (.of_fresh (hstage.of_vars hstored hsent) (Thread.receive_inside ..))
  | lock hpc _ =>
    rw [hpc] at hstage
    exact h.set_quiet hfull hstep rfl rfl rfl (Or.inl rfl) (Fresh.of_vars hstage rfl rfl)
  | seekEnd hpc =>
    rw [hpc] at hstage
    simp only [hfull.seeks, if_true] at hstep ⊢
    exact h.set_quiet hfull hstep rfl rfl rfl (Or.inr (by rw [hpc]; rfl))
      ⟨Fresh.of_vars hstage rfl rfl, rfl⟩
  | fwrite hpc =>
    rw [hpc] at hstage
    obtain ⟨hfresh, hpos⟩ := hstage
    have hcontent (bytes : List UInt8) : (p.file.fwrite bytes).content =
        p.file.content ++ bytes := by
      simp [Stream.fwrite, hpos]
    refine h.set hfull hstep rfl ?_ ⟨_, rfl, by simp⟩ (Or.inr (by rw [hpc]; rfl)) ?_
    · rw [hcontent, h.content, logged_append, List.append_assoc]
      simp [logged]
    · refine ⟨⟨p.log, ?_⟩, hfresh.sent⟩
      simp [Thread.goto, Thread.write, hfresh.stored]
  | seekStart hpc =>
    rw [hpc] at hstage
    simp only [hfull.seeks, if_true] at hstep ⊢
    refine h.set_quiet hfull hstep rfl rfl rfl (Or.inr (by rw [hpc]; rfl))
      ⟨hstage.1, ?_, fun heof => by cases heof⟩
    simp [Thread.goto, Thread.clear, Stream.seekStart, hstage.2]
  | atEnd hpc heof =>
    rw [hpc] at hstage
    obtain ⟨hnewest, hsent, hend⟩ := hstage
    rw [List.drop_eq_nil_of_le (hend heof), List.append_nil] at hsent
    exact h.set_quiet hfull hstep rfl rfl rfl (Or.inl rfl) ⟨hnewest, hsent⟩
  | notAtEnd hpc _ =>
    rw [hpc] at hstage
    exact h.set_quiet hfull hstep rfl rfl rfl (Or.inl rfl) hstage
  | fread hpc =>
    have heof := h.sound.guarded.reads a.task hpc
    rw [hpc] at hstage
    obtain ⟨hnewest, hsent, _⟩ := hstage
    simp only [hfull.error] at hstep ⊢
    refine h.set_quiet hfull hstep rfl rfl rfl (Or.inr (by rw [hpc]; rfl)) ⟨hnewest, ?_, ?_⟩
    · have hnext := p.file.next_append_drop (p.threads a.task).vars.currentMaxSize.toNat
      simp only [Thread.goto, Thread.store, List.take_left]
      rw [List.append_assoc, hnext]
      exact hsent
    · intro hflag
      apply p.file.le_pos_of_short
      simpa [Stream.fread, heof] using hflag
  | send hpc _ =>
    rw [hpc] at hstage
    simp only [hfull.unsent] at hstep ⊢
    exact h.set_quiet hfull hstep rfl rfl rfl (Or.inl rfl) hstage
  | unlock hpc =>
    rw [hpc] at hstage
    obtain ⟨⟨before, hlog⟩, hsent⟩ := hstage
    have hdone := (p.threads a.task).complete.endTurn_done a.stale rfl
    obtain ⟨hstored, hkept⟩ := (p.threads a.task).complete.endTurn_vars a.stale
    refine h.set_quiet hfull hstep rfl rfl rfl (Or.inl rfl) ?_
    unfold Stage
    rw [hdone]
    refine Or.inr ⟨before, [], by rw [hstored]; exact hlog, ?_⟩
    have hwhole : p.file.content =
        initial ++ logged before ++ (p.threads a.task).vars.stored := by
      rw [h.content, hlog, logged_append, ← List.append_assoc]
      simp [logged]
    rw [hkept, hstored]
    exact hsent.trans hwhole

theorem of_run (file : Stream) (inputs : List Input) (hfull : ∀ a ∈ inputs, a.Full) (p : Pool)
    (hrun : Runs.run Pool.step (Pool.start file) inputs = some p) :
    Orderly file.content p := by
  refine Runs.run_invariant (Orderly file.content) (fun _ a => a.Full) (.start file)
    (fun _ _ _ h hok hstep => h.step hok hstep) inputs ?_ hrun
  intro done a rest u hsplit _
  exact hfull a (by simp [hsplit])

end Orderly

/-- In every order of the steps and whatever fails, one thread at most is inside, and each
thread puts into the file at most once, and then the front of its package, which ends with
a newline or is empty. If nothing fails, the packages stand in the file one after the
other, each of them whole, and a thread that has come to its end has sent the file up to
and including its own package, or, if it has stored none, nothing. -/
theorem packages_in_order (file : Stream) (inputs : List Input) (p : Pool)
    (hrun : Runs.run Pool.step (Pool.start file) inputs = some p)
    (hsize : ∀ i, (p.threads i).received.length < 2 ^ 29) :
    (∀ i j, (p.threads i).pc.inside = true → (p.threads j).pc.inside = true → i = j) ∧
      (p.log.map Prod.fst).Nodup ∧
      (∀ e ∈ p.log, e.2 <+: (p.threads e.1).received ∧
        ((p.threads e.1).received = [] ∨ Ended (p.threads e.1).received)) ∧
      ((∀ a ∈ inputs, a.Full) →
        p.file.content = file.content ++ logged p.log ∧
        (∀ e ∈ p.log, e.2 = (p.threads e.1).received) ∧
        ∀ i, (p.threads i).pc = .done →
          ((∀ e ∈ p.log, e.1 ≠ i) ∧ (p.threads i).vars.sent = []) ∨
          ∃ before after, p.log = before ++ (i, (p.threads i).received) :: after ∧
            (p.threads i).vars.sent =
              file.content ++ logged before ++ (p.threads i).received) := by
  obtain ⟨hguarded, _, hentries⟩ := Sound.of_run file inputs p hrun
  refine ⟨?_, hguarded.once, fun e he => hentries e he (hsize e.1), ?_⟩
  · intro i j hi hj
    by_contra hne
    rw [hguarded.not_inside hne hi] at hj
    cases hj
  · intro hfull
    obtain ⟨_, hcontent, hwhole, hstage⟩ := Orderly.of_run file inputs hfull p hrun
    refine ⟨hcontent, fun e he => hwhole e he (hsize e.1), ?_⟩
    intro i hdone
    have hlast := hstage i
    unfold Stage at hlast
    rw [hdone] at hlast
    rcases hlast with hfresh | ⟨before, after, hlog, hsent⟩
    · exact Or.inl ⟨hfresh.notMem, hfresh.sent⟩
    · have hstored : (p.threads i).vars.stored = (p.threads i).received :=
        hwhole (i, (p.threads i).vars.stored) (by rw [hlog]; simp) (hsize i)
      rw [hstored] at hlog hsent
      exact Or.inr ⟨before, after, hlog, hsent⟩

/-- Two threads; the second one receives its package while the first one holds the mutex,
and gets the mutex after it. -/
def twoThreads : List Input :=
  [.plain 0 (some ⟨[97, 10], by decide⟩), .plain 0 none, .plain 0 none,
   .plain 1 (some ⟨[98, 10], by decide⟩), .plain 0 none, .plain 0 none, .plain 0 none,
   .plain 0 none, .plain 0 none, .plain 0 none, .plain 0 none, .plain 1 none]

theorem packages_in_order_two_threads :
    ∃ p, Runs.run Pool.step (Pool.start ⟨[120], 0, false⟩) twoThreads = some p ∧
      (p.threads 0).pc = .done ∧ (p.threads 1).pc.inside = true ∧
      p.file.content = [120] ++ logged p.log ∧
      ((∀ e ∈ p.log, e.1 ≠ 0) ∧ (p.threads 0).vars.sent = [] ∨
        ∃ before after, p.log = before ++ (0, [97, 10]) :: after ∧
          (p.threads 0).vars.sent = [120] ++ logged before ++ [97, 10]) := by
  obtain ⟨_, _, _, hfull⟩ := packages_in_order ⟨[120], 0, false⟩ twoThreads _ rfl (by
    intro i
    match i with
    | 0 => decide
    | 1 => decide
    | i + 2 => exact (by decide : 0 < 2 ^ 29))
  obtain ⟨hcontent, _, hdone⟩ := hfull (by decide)
  exact ⟨_, rfl, rfl, rfl, hcontent, hdone 0 rfl⟩

end Aesd.ThreadFunc
