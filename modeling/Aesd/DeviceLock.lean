import Aesd.Driver

/-!
The lock of the device. `aesd_write` and `aesd_adjust_file_offset` have the same
shape: checks before the lock, `mutex_lock_interruptible`, the body, and a label
`clean` with `mutex_unlock`. An acquisition that fails because of a signal also
goes to `clean`, so its task unlocks what it never locked. Without signals the
lock is released only by its holder, and one task at a time is inside.
-/
namespace Aesd.DeviceLock

open Driver

/-- A call of `aesd_write`, or of `aesd_ioctl` with `AESDCHAR_IOCSEEKTO`. -/
inductive Op
  | write (call : WriteCall)
  | seekto (arg : Option Seekto)

namespace Op

/-- The return value of a call that ends before it comes to the lock. -/
def early : Op → Option ℤ
  | .write call => if call.filpNull || call.buf.isNone then some (-EINVAL) else none
  | .seekto arg => if arg.isNone then some (-EFAULT) else none

/-- The part between the acquisition and `clean`: the new device, the new file
position and the return value. -/
def body (op : Op) (k : Kernel) (fPos : ℤ) : Option (Kernel × ℤ × ℤ) :=
  match op with
  | .write call =>
      (aesdWrite k { call with fPos := fPos, interrupted := false }).map
        (fun r => (r.kernel, r.fPos, r.retval))
  | .seekto arg =>
      let r := aesdIoctl k.dev fPos iocSeekto arg false
      some (k, r.fPos, r.retval)

end Op

/-- Where a task is in its call; `acquired` tells how it came to `clean`. -/
inductive Phase
  | outside
  | atLock (op : Op)
  | inside (op : Op)
  | atClean (acquired : Bool) (retval : ℤ)

/-- Between a successful acquisition and its unlock. -/
def Phase.between : Phase → Bool
  | .inside _ => true
  | .atClean acquired _ => acquired
  | _ => false

/-- One `mutex_unlock`: who made it, and who held the lock. -/
structure Unlock where
  task : ℕ
  holder : Option ℕ
  deriving DecidableEq

structure State where
  kernel : Kernel
  lock : Option ℕ
  fPos : ℕ → ℤ
  phase : ℕ → Phase
  unlocks : List Unlock

def init : State := ⟨aesdInitModule, none, fun _ => 0, fun _ => .outside, []⟩

inductive Act
  | call (i : ℕ) (op : Op)
  | acquire (i : ℕ)
  | signal (i : ℕ)
  | body (i : ℕ)
  | unlock (i : ℕ)

def State.goto (s : State) (i : ℕ) (phase : Phase) : State :=
  { s with phase := Function.update s.phase i phase }

/-- The lock is granted only when it is free; `mutex_unlock` frees it whoever
holds it. -/
def step (s : State) : Act → Option State
  | .call i op =>
      match s.phase i with
      | .outside => some (if op.early.isSome then s else s.goto i (.atLock op))
      | _ => none
  | .acquire i =>
      match s.phase i, s.lock with
      | .atLock op, none => some { s.goto i (.inside op) with lock := some i }
      | _, _ => none
  | .signal i =>
      match s.phase i with
      | .atLock _ => some (s.goto i (.atClean false (-ERESTARTSYS)))
      | _ => none
  | .body i =>
      match s.phase i with
      | .inside op => (op.body s.kernel (s.fPos i)).map (fun r =>
          { s.goto i (.atClean true r.2.2) with
            kernel := r.1
            fPos := Function.update s.fPos i r.2.1 })
      | _ => none
  | .unlock i =>
      match s.phase i with
      | .atClean _ _ => some { s.goto i .outside with
          lock := none
          unlocks := s.unlocks ++ [⟨i, s.lock⟩] }
      | _ => none

/-- The lock is released only by its holder, and at most one task is between a
successful acquisition and its unlock. -/
structure Disciplined (s : State) : Prop where
  own_unlock : ∀ e ∈ s.unlocks, e.holder = some e.task
  exclusive : ∀ i j, (s.phase i).between = true → (s.phase j).between = true → i = j

/-- No acquisition fails because of a signal. -/
def NoSignal (_ : State) (a : Act) : Prop := ∀ i, a ≠ .signal i

/-- The task that holds the lock is the one inside, and nobody is at `clean`
without having acquired it. -/
structure Held (s : State) : Prop where
  holder : ∀ i, (s.phase i).between = true ↔ s.lock = some i
  acquired : ∀ i acquired retval, s.phase i = .atClean acquired retval → acquired = true
  own_unlock : ∀ e ∈ s.unlocks, e.holder = some e.task

namespace Held

theorem init : Held init where
  holder i := by simp [DeviceLock.init, Phase.between]
  acquired i acquired retval h := by simp [DeviceLock.init] at h
  own_unlock e he := by simp [DeviceLock.init] at he

theorem disciplined {s : State} (h : Held s) : Disciplined s where
  own_unlock := h.own_unlock
  exclusive i j hi hj := by
    rw [h.holder] at hi hj
    exact Option.some.inj (hi.symm.trans hj)

section Goto

variable {s t : State} {i : ℕ} {phase : Phase} (h : Held s)
  (hphase : t.phase = Function.update s.phase i phase)
  (hclean : ∀ acquired retval, phase = .atClean acquired retval → acquired = true)

include h hphase hclean

theorem acquired_goto (j : ℕ) (acquired : Bool) (retval : ℤ)
    (hj : t.phase j = .atClean acquired retval) : acquired = true := by
  rw [hphase] at hj
  by_cases hji : j = i
  · subst hji
    rw [Function.update_self] at hj
    exact hclean acquired retval hj
  · rw [Function.update_of_ne hji] at hj
    exact h.acquired j acquired retval hj

/-- A move that neither takes nor releases the lock. -/
theorem goto (hbetween : phase.between = (s.phase i).between) (hlock : t.lock = s.lock)
    (hunlocks : t.unlocks = s.unlocks) : Held t where
  holder j := by
    rw [hphase, hlock, ← h.holder]
    by_cases hji : j = i
    · subst hji
      rw [Function.update_self, hbetween]
    · rw [Function.update_of_ne hji]
  acquired := h.acquired_goto hphase hclean
  own_unlock := by
    rw [hunlocks]
    exact h.own_unlock

end Goto

theorem step {s t : State} {a : Act} (h : Held s) (hok : NoSignal s a)
    (hstep : step s a = some t) : Held t := by
  cases a with
  | call i op =>
    simp only [DeviceLock.step] at hstep
    split at hstep
    · rename_i hphase
      cases hstep
      split
      · exact h
      · exact h.goto rfl (by simp) (by rw [hphase]; rfl) rfl rfl
    · cases hstep
  | acquire i =>
    simp only [DeviceLock.step] at hstep
    split at hstep
    · rename_i op hphase hlock
      cases hstep
      refine ⟨?_, h.acquired_goto rfl (by simp), h.own_unlock⟩
      intro j
      by_cases hji : j = i
      · subst hji
        simp [State.goto, Phase.between]
      · simp only [State.goto, Function.update_of_ne hji, h.holder, hlock]
        simp [Ne.symm hji]
    · cases hstep
  | signal i => exact absurd rfl (hok i)
  | body i =>
    simp only [DeviceLock.step] at hstep
    split at hstep
    · rename_i op hphase
      obtain ⟨r, _, rfl⟩ := Option.map_eq_some_iff.mp hstep
      refine h.goto rfl ?_ (by rw [hphase]; rfl) rfl rfl
      intro acquired retval heq
      cases heq
      rfl
    · cases hstep
  | unlock i =>
    simp only [DeviceLock.step] at hstep
    split at hstep
    · rename_i acquired retval hphase
      cases hstep
      have hbetween : (s.phase i).between = true := by
        rw [hphase]
        exact h.acquired i acquired retval hphase
      have hlock := (h.holder i).mp hbetween
      refine ⟨?_, h.acquired_goto rfl (by simp), ?_⟩
      · intro j
        apply iff_of_false
        · by_cases hji : j = i
          · subst hji
            simp [State.goto, Phase.between]
          · simp only [State.goto, Function.update_of_ne hji, h.holder, hlock]
            simp [Ne.symm hji]
        · simp
      · intro e he
        rcases List.mem_append.mp he with hold | hnew
        · exact h.own_unlock e hold
        · cases List.mem_singleton.mp hnew
          exact hlock
    · cases hstep

end Held

/-- In every run without a failed acquisition the lock is used as it should be. -/
theorem disciplined_of_noSignal (acts : List Act) (s : State)
    (hmeets : Runs.Meets step NoSignal init acts) (hrun : Runs.run step init acts = some s) :
    Disciplined s :=
  (Runs.run_invariant Held NoSignal Held.init (fun _ _ _ h hok hstep => h.step hok hstep)
    acts hmeets hrun).disciplined

/-- The write of one line. -/
def Op.line : Op := .write (.granted ⟨[97, newline], by decide⟩ 0)

/-- A write and a seek, the second waiting for the first. -/
theorem disciplined_write_and_seek :
    ∃ s, Runs.run step init [.call 0 .line, .acquire 0,
        .call 1 (.seekto (some ⟨0, 1, by decide, by decide⟩)), .body 0, .unlock 0, .acquire 1,
        .body 1, .unlock 1] = some s ∧
      s.unlocks = [⟨0, some 0⟩, ⟨1, some 1⟩] ∧ Disciplined s := by
  have hvals : (Runs.run step init [.call 0 .line, .acquire 0,
      .call 1 (.seekto (some ⟨0, 1, by decide, by decide⟩)), .body 0, .unlock 0, .acquire 1,
      .body 1, .unlock 1]).map State.unlocks = some [⟨0, some 0⟩, ⟨1, some 1⟩] := by decide
  obtain ⟨s, hs, hunlocks⟩ := Option.map_eq_some_iff.mp hvals
  refine ⟨s, hs, hunlocks, disciplined_of_noSignal _ s ?_ hs⟩
  intro done a rest u hacts _ i ha
  have hmem : a ∈ done ++ a :: rest := by simp
  rw [← hacts, ha] at hmem
  simp at hmem

/-- Task 0 is inside when the acquisition of task 1 is interrupted; task 1 unlocks
the lock of task 0, and task 2 comes inside as well. -/
theorem unlock_by_stranger :
    ∃ acts s, Runs.run step init acts = some s ∧ ⟨1, some 0⟩ ∈ s.unlocks ∧
      (s.phase 0).between = true ∧ (s.phase 2).between = true ∧ ¬ Disciplined s := by
  have hvals : (Runs.run step init [.call 0 .line, .acquire 0, .call 1 .line, .signal 1,
      .unlock 1, .call 2 .line, .acquire 2]).map
        (fun s => (s.unlocks, (s.phase 0).between, (s.phase 2).between)) =
      some ([⟨1, some 0⟩], true, true) := by decide
  obtain ⟨s, hs, hvals⟩ := Option.map_eq_some_iff.mp hvals
  simp only [Prod.mk.injEq] at hvals
  obtain ⟨hunlocks, hzero, htwo⟩ := hvals
  refine ⟨_, s, hs, by simp [hunlocks], hzero, htwo, ?_⟩
  intro h
  exact absurd (h.exclusive 0 2 hzero htwo) (by decide)

end Aesd.DeviceLock
