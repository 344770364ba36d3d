import Aesd.ServerState
import Aesd.Runs

/-!
The mutex `file_mutex` of the server. Which handler holds it depends on nothing but the
order of the calls and what they return, so here every call returns what it likes,
except that a lock waits until the mutex is free. A handler holds the mutex exactly
from the call that locks it to the call that unlocks it, on the path without memory as
well; so the calls of the read-back are made by one handler at a time.
-/
namespace Aesd.Server

open Driver Runs

/-- Between the lock and the unlock of `file_mutex`. -/
def Pc.holdsMutex : Pc → Bool
  | .mallocWriteBuf | .unlockOnError | .reopenFile | .read | .send _ | .closeLast
  | .unlockMutex => true
  | _ => false

theorem Handler.receive_holdsMutex (h : Handler) (chunk : Chunk) :
    (h.receive chunk).pc.holdsMutex = false := by
  simp only [Handler.receive]
  split
  · rfl
  · split
    · rfl
    · rfl

theorem Handler.afterWrite_holdsMutex (h : Handler) : h.afterWrite.pc.holdsMutex = false := by
  unfold Handler.afterWrite
  split
  · rfl
  · rfl

/-- Only the two calls on the mutex change who holds it. -/
theorem Handler.resume_holdsMutex (h : Handler) (result : Result)
    (hlock : h.call ≠ some .lock) (hunlock : h.call ≠ some .unlock) :
    (h.resume result).pc.holdsMutex = h.pc.holdsMutex := by
  unfold Handler.call at hlock hunlock
  unfold Handler.resume
  cases hpc : h.pc with
  | getpeername => cases result <;> rfl
  | mallocBuffer => cases result <;> rfl
  | closeSockfd => rfl
  | openFile => rfl
  | recv =>
    cases result with
    | recv r =>
      cases r with
      | data chunk => exact h.receive_holdsMutex chunk
      | closed => rfl
      | error => rfl
    | _ => rfl
  | closeOnError => rfl
  | ioctl seekto => rfl
  | write n => exact h.afterWrite_holdsMutex
  | lseek => rfl
  | closeFile => rfl
  | lockMutex => exact absurd (by rw [hpc]) hlock
  | mallocWriteBuf =>
    cases result with
    | ok =>
      simp only
      split
      · rfl
      · rfl
    | _ => rfl
  | unlockOnError => exact absurd (by rw [hpc]) hunlock
  | reopenFile => rfl
  | read => cases result <;> rfl
  | send data => rfl
  | closeLast => rfl
  | unlockMutex => exact absurd (by rw [hpc]) hunlock
  | returned => rw [hpc]

theorem Handler.pc_of_lock {h : Handler} (hcall : h.call = some .lock) : h.pc = .lockMutex := by
  unfold Handler.call at hcall
  cases hpc : h.pc with
  | lockMutex => rfl
  | _ =>
    rw [hpc] at hcall
    cases hcall

theorem Handler.pc_of_unlock {h : Handler} (hcall : h.call = some .unlock) :
    h.pc = .unlockOnError ∨ h.pc = .unlockMutex := by
  unfold Handler.call at hcall
  cases hpc : h.pc with
  | unlockOnError => exact Or.inl rfl
  | unlockMutex => exact Or.inr rfl
  | _ =>
    rw [hpc] at hcall
    cases hcall

/-- The calls between the lock and the unlock that read the device and reply. -/
def Call.readsBack : Call → Bool
  | .read | .send _ => true
  | _ => false

theorem Handler.holdsMutex_of_readsBack {h : Handler} {call : Call} (hcall : h.call = some call)
    (hreads : call.readsBack = true) : h.pc.holdsMutex = true := by
  unfold Handler.call at hcall
  cases hpc : h.pc with
  | read => rfl
  | send data => rfl
  | returned =>
    rw [hpc] at hcall
    cases hcall
  | _ =>
    rw [hpc] at hcall
    cases hcall
    cases hreads

theorem Handler.holdsMutex_of_unlock {h : Handler} (hcall : h.call = some .unlock) :
    h.pc.holdsMutex = true := by
  rcases Handler.pc_of_unlock hcall with hpc | hpc
  · rw [hpc]
    rfl
  · rw [hpc]
    rfl

/-- The handlers and the mutex. -/
structure Locking where
  handlers : ℕ → Handler
  fileMutex : Option ℕ

/-- The call of thread `task` returns with this result. -/
structure Return where
  task : ℕ
  result : Result

namespace Locking

def init : Locking := ⟨fun _ => .start, none⟩

def resumed (s : Locking) (a : Return) (fileMutex : Option ℕ) : Locking :=
  ⟨Function.update s.handlers a.task ((s.handlers a.task).resume a.result), fileMutex⟩

def step (s : Locking) (a : Return) : Option Locking :=
  match (s.handlers a.task).call with
  | none => none
  | some .lock => if s.fileMutex = none then some (s.resumed a (some a.task)) else none
  | some .unlock => some (s.resumed a none)
  | some _ => some (s.resumed a s.fileMutex)

theorem resumed_self (s : Locking) (a : Return) (fileMutex : Option ℕ) :
    (s.resumed a fileMutex).handlers a.task = (s.handlers a.task).resume a.result :=
  Function.update_self ..

theorem resumed_of_ne (s : Locking) (a : Return) (fileMutex : Option ℕ) {j : ℕ}
    (h : j ≠ a.task) : (s.resumed a fileMutex).handlers j = s.handlers j :=
  Function.update_of_ne h ..

/-- What a step does: it locks a free mutex, it unlocks, or it leaves the mutex alone. -/
theorem step_cases {s t : Locking} {a : Return} (hstep : s.step a = some t) :
    ((s.handlers a.task).call = some .lock ∧ s.fileMutex = none ∧
      t = s.resumed a (some a.task)) ∨
    ((s.handlers a.task).call = some .unlock ∧ t = s.resumed a none) ∨
    (∃ call, (s.handlers a.task).call = some call ∧ call ≠ .lock ∧ call ≠ .unlock ∧
      t = s.resumed a s.fileMutex) := by
  unfold step at hstep
  split at hstep
  · cases hstep
  · rename_i hcall
    split at hstep
    · rename_i hfree
      exact Or.inl ⟨hcall, hfree, (Option.some.inj hstep).symm⟩
    · cases hstep
  · rename_i hcall
    exact Or.inr (Or.inl ⟨hcall, (Option.some.inj hstep).symm⟩)
  · rename_i call hlock hunlock hcall
    exact Or.inr (Or.inr ⟨call, hcall, hlock, hunlock, (Option.some.inj hstep).symm⟩)

/-- The mutex is with the handler that stands between its two calls. -/
def MutexHeld (s : Locking) : Prop :=
  ∀ i, (s.handlers i).pc.holdsMutex = true ↔ s.fileMutex = some i

theorem mutexHeld_init : init.MutexHeld := by
  intro i
  exact iff_of_false (show Handler.start.pc.holdsMutex ≠ true by decide) (by simp [init])

theorem MutexHeld.step {s t : Locking} {a : Return} (h : s.MutexHeld)
    (hstep : s.step a = some t) : t.MutexHeld := by
  intro j
  obtain ⟨hcall, hfree, rfl⟩ | ⟨hcall, rfl⟩ | ⟨call, hcall, hlock, hunlock, rfl⟩ :=
    step_cases hstep
  · change _ ↔ some a.task = some j
    by_cases hj : j = a.task
    · subst hj
      rw [resumed_self]
      refine iff_of_true ?_ rfl
      simp [Handler.resume, Handler.pc_of_lock hcall, Pc.holdsMutex]
    · rw [resumed_of_ne s a _ hj, h j, hfree]
      simp [Ne.symm hj]
  · have howner := (h a.task).mp (Handler.holdsMutex_of_unlock hcall)
    change _ ↔ none = some j
    by_cases hj : j = a.task
    · subst hj
      rw [resumed_self]
      refine iff_of_false ?_ (by simp)
      rcases Handler.pc_of_unlock hcall with hpc | hpc
      · simp [Handler.resume, hpc, Pc.holdsMutex]
      · simp [Handler.resume, hpc, Pc.holdsMutex]
    · rw [resumed_of_ne s a _ hj, h j, howner]
      simp [Ne.symm hj]
  · change _ ↔ s.fileMutex = some j
    rw [← h j]
    by_cases hj : j = a.task
    · subst hj
      rw [resumed_self, Handler.resume_holdsMutex _ a.result]
      · rw [hcall]
        exact fun heq => hlock (Option.some.inj heq)
      · rw [hcall]
        exact fun heq => hunlock (Option.some.inj heq)
    · rw [resumed_of_ne s a _ hj]

theorem mutexHeld_of_run (acts : List Return) (s : Locking)
    (hrun : run step init acts = some s) : s.MutexHeld :=
  run_invariant MutexHeld (fun _ _ => True) mutexHeld_init
    (fun _ _ _ h _ hstep => h.step hstep) acts (fun _ _ _ _ _ _ => trivial) hrun

/-- The handler is not at a call that unlocks. -/
def NotUnlocking (i : ℕ) (s : Locking) (a : Return) : Prop :=
  a.task = i → (s.handlers i).call ≠ some .unlock

instance (i : ℕ) (s : Locking) (a : Return) : Decidable (NotUnlocking i s a) :=
  inferInstanceAs (Decidable (a.task = i → (s.handlers i).call ≠ some .unlock))

/-- Handler `i` has the mutex, and whoever waited for it in `s` still waits. -/
structure Served (i : ℕ) (s t : Locking) : Prop where
  held : t.MutexHeld
  owner : t.fileMutex = some i
  waiting : ∀ j, (s.handlers j).pc = .lockMutex → (t.handlers j).pc = .lockMutex

namespace Served

variable {i : ℕ} {s t u : Locking}

theorem holds_iff (h : Served i s t) (j : ℕ) : (t.handlers j).pc.holdsMutex = true ↔ j = i := by
  rw [h.held j, h.owner, Option.some.injEq, eq_comm]

theorem step (h : Served i s t) (a : Return) (hkeeps : NotUnlocking i t a)
    (hstep : t.step a = some u) : Served i s u := by
  have hheld := h.held.step hstep
  obtain ⟨_, hfree, _⟩ | ⟨hcall, _⟩ | ⟨call, hcall, hlock, _, rfl⟩ := step_cases hstep
  · rw [h.owner] at hfree
    cases hfree
  · have htask : a.task = i := (h.holds_iff a.task).mp (Handler.holdsMutex_of_unlock hcall)
    exact absurd (htask ▸ hcall) (hkeeps htask)
  · refine ⟨hheld, h.owner, ?_⟩
    intro j hj
    have hpc := h.waiting j hj
    by_cases htask : j = a.task
    · subst htask
      rw [Handler.call, hpc] at hcall
      exact absurd (Option.some.inj hcall).symm hlock
    · rw [resumed_of_ne t a _ htask]
      exact hpc

theorem of_run (hheld : s.MutexHeld) (howner : s.fileMutex = some i) (acts : List Return)
    (hacts : Meets Locking.step (NotUnlocking i) s acts)
    (hrun : run Locking.step s acts = some t) : Served i s t :=
  run_invariant (Served i s) (NotUnlocking i) ⟨hheld, howner, fun _ h => h⟩
    (fun _ a _ h hok hstep => h.step a hok hstep) acts hacts hrun

end Served

/-- Any number of clients, in any order of their calls and whatever these return: from the
moment handler `i` has the mutex until it unlocks it, it alone is between lock and unlock,
every read and every send in the process is a call of handler `i`, only it can unlock, and
whoever waits for the mutex goes on waiting. -/
theorem reply_uninterrupted (before : List Return) (s : Locking)
    (hbefore : run step init before = some s) (i : ℕ) (howner : s.fileMutex = some i)
    (acts : List Return) (hacts : Meets step (NotUnlocking i) s acts) (t : Locking)
    (hrun : run step s acts = some t) :
    (∀ j, (t.handlers j).pc.holdsMutex = true ↔ j = i) ∧
      (∀ done a rest u call, acts = done ++ a :: rest → run step s done = some u →
        (u.handlers a.task).call = some call → call.readsBack = true → a.task = i) ∧
      (∀ j, (t.handlers j).call = some .unlock → j = i) ∧
      ∀ j, (s.handlers j).pc = .lockMutex → (t.handlers j).pc = .lockMutex := by
  have hheld := mutexHeld_of_run before s hbefore
  have hserved := Served.of_run hheld howner acts hacts hrun
  refine ⟨hserved.holds_iff, ?_, ?_, hserved.waiting⟩
  · intro done a rest u call hsplit hu hcall hreads
    subst hsplit
    exact ((Served.of_run hheld howner done hacts.init hu).holds_iff a.task).mp
      (Handler.holdsMutex_of_readsBack hcall hreads)
  · intro j hcall
    exact (hserved.holds_iff j).mp (Handler.holdsMutex_of_unlock hcall)

/-- Handler `task` up to the lock: its client has sent a line. -/
def toLock (task : ℕ) : List Return :=
  [⟨task, .ok⟩, ⟨task, .ok⟩, ⟨task, .ok⟩,
    ⟨task, .recv (.data ⟨[101, newline], by decide, by decide⟩)⟩, ⟨task, .ok⟩, ⟨task, .ok⟩,
    ⟨task, .ok⟩]

/-- Client 0 is sent its line while client 1 waits for the mutex. -/
theorem reply_uninterrupted_sample :
    ∃ s t, run step init (toLock 0 ++ ⟨0, .ok⟩ :: toLock 1) = some s ∧
      s.fileMutex = some 0 ∧ (s.handlers 1).pc = .lockMutex ∧
      run step s [⟨0, .ok⟩, ⟨0, .ok⟩, ⟨0, .data [101, newline]⟩, ⟨0, .ok⟩] = some t ∧
      (t.handlers 1).pc.holdsMutex = false ∧ (t.handlers 1).pc = .lockMutex := by
  obtain ⟨hone, _, _, hwaiting⟩ := reply_uninterrupted (toLock 0 ++ ⟨0, .ok⟩ :: toLock 1) _ rfl
    0 rfl [⟨0, .ok⟩, ⟨0, .ok⟩, ⟨0, .data [101, newline]⟩, ⟨0, .ok⟩] (by decide) _ rfl
  refine ⟨_, _, rfl, rfl, rfl, rfl, ?_, hwaiting 1 rfl⟩
  rw [← Bool.not_eq_true, hone]
  decide

end Locking

/-- The handlers and the mutex of the server. -/
def State.locking (s : State) : Locking := ⟨s.handlers, s.fileMutex⟩

/-- A step of the server is one of its handlers and its mutex, with some result. -/
theorem locking_step {s t : State} {a : Act} (hstep : step s a = some t) :
    ∃ r, s.locking.step r = some t.locking := by
  obtain ⟨call, s', result, hcall, hexec, rfl⟩ := step_eq_some_iff.mp hstep
  have hframe := exec_frame hexec
  refine ⟨⟨a.task, result⟩, ?_⟩
  cases call with
  | lock =>
    simp only [exec] at hexec
    split at hexec
    · rename_i hfree
      cases hexec
      simp only [Locking.step, State.locking, hcall, hfree, if_true]
      rfl
    · cases hexec
  | unlock =>
    cases hexec
    simp only [Locking.step, State.locking, hcall]
    rfl
  | _ =>
    simp only [Locking.step, State.locking, hcall, State.resumed]
    rw [hframe.mutex (by simp) (by simp)]
    rfl

/-- So every run of the server is one of its handlers and its mutex. -/
theorem locking_run (sockfd : ℕ) (inbox : ℕ → List Recv) (acts : List Act) (s : State)
    (hrun : run step (initAt sockfd inbox) acts = some s) :
    ∃ returns, run Locking.step .init returns = some s.locking := by
  refine run_invariant (fun u => ∃ returns, run Locking.step .init returns = some u.locking)
    (fun _ _ => True) ⟨[], rfl⟩ ?_ acts (fun _ _ _ _ _ _ => trivial) hrun
  intro u a v hu _ hstep
  obtain ⟨returns, hreturns⟩ := hu
  obtain ⟨r, hr⟩ := locking_step hstep
  exact ⟨returns ++ [r], (run_concat_eq_some returns r).mpr ⟨_, hreturns, hr⟩⟩

end Aesd.Server
