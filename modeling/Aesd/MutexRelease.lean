import Aesd.PackageOrder

/-!
The mutex of the threads in `threadfunc` is released again. What the thread that holds it
still has to do is bounded by the length of the file, as long as its reads do not fail, and
it never waits for another thread; it waits for its own client where that takes nothing. A
thread whose reads all fail keeps the mutex.
-/
namespace Aesd.ThreadFunc

open Driver Receiver

/-- The bytes before the end of the file and the read that notices it. -/
def Stream.left (f : Stream) : ℕ := if f.eof then 0 else f.content.length - f.pos + 1

/-- A bound on the number of calls that thread `i` makes before it has released the mutex. -/
def Pool.work (p : Pool) (i : ℕ) : ℕ :=
  let length := p.file.content.length
  match (p.threads i).pc with
  | .seekEnd => 3 * (length + (p.threads i).vars.package.length + 1) + 5
  | .fwrite => 3 * (length + (p.threads i).vars.package.length + 1) + 4
  | .seekStart => 3 * (length + 1) + 3
  | .feof => 3 * p.file.left + 2
  | .fread => 3 * p.file.left + 1
  | .send => 3 * p.file.left + 3
  | .unlock => 1
  | .recv | .lock | .done => 0

theorem Stream.left_le (f : Stream) : f.left ≤ f.content.length + 1 := by
  unfold Stream.left
  split
  · omega
  · omega

theorem Stream.length_fwrite (f : Stream) (bytes : List UInt8) :
    (f.fwrite bytes).content.length ≤ f.content.length + bytes.length := by
  simp only [Stream.fwrite, List.length_append, List.length_take, List.length_drop]
  omega

/-- A read of at least one byte gets nearer to the end of the file. -/
theorem Stream.left_fread (f : Stream) (size : ℕ) (hsize : 0 < size) (heof : f.eof = false) :
    (f.fread size none).left < f.left := by
  have hlength : (f.next size none).length = min size (f.content.length - f.pos) := by
    rw [Stream.next, List.length_take, List.length_drop]
  unfold Stream.left
  rw [heof]
  split
  · simp
  · rename_i hmore
    have hfull : ¬ (f.next size none).length < size := by
      simpa [Stream.fread, heof] using hmore
    change f.content.length - (f.pos + (f.next size none).length) + 1 <
      f.content.length - f.pos + 1
    omega

/-- The next call of the thread inside can be made, unless its client keeps `send` waiting. -/
theorem Sound.goes_on {p : Pool} (h : Sound p) (a : Input) (howner : p.owner = some a.task)
    (hready : (p.threads a.task).pc = .send → a.ready = true) : ∃ q, p.step a = some q := by
  have hinside := (h.guarded.holder a.task).mpr howner
  simp only [Pool.step]
  cases hpc : (p.threads a.task).pc with
  | recv => cases hpc ▸ hinside
  | lock => cases hpc ▸ hinside
  | done => cases hpc ▸ hinside
  | send => exact ⟨_, if_pos (hready hpc)⟩
  | _ => exact ⟨_, rfl⟩

/-- Each call of the thread inside brings it nearer to the end, if its reads do not fail. -/
theorem Sound.work_lt {p q : Pool} (h : Sound p) {a : Input} (hstep : p.step a = some q)
    (howner : p.owner = some a.task) (herror : a.error = none)
    (hsize : (p.threads a.task).received.length < 2 ^ 29) :
    q.work a.task < p.work a.task ∧
      (q.threads a.task).received = (p.threads a.task).received ∧
      (q.owner = some a.task ∨ (q.threads a.task).pc = .done) := by
  have hinside := (h.guarded.holder a.task).mpr howner
  have hcollects := h.collects a.task hsize
  have hinit := initBufferSize_eq
  unfold Collects at hcollects
  cases Pool.moves_of_step hstep with
  | failed hpc => cases hpc ▸ hinside
  | received hpc => cases hpc ▸ hinside
  | lock hpc => cases hpc ▸ hinside
  | seekEnd hpc =>
    refine ⟨?_, by simp [Pool.set, Thread.goto], Or.inl howner⟩
    cases a.seeks with
    | true => simp [Pool.work, hpc, Pool.set, Thread.goto, Stream.seekEnd]
    | false => simp [Pool.work, hpc, Pool.set, Thread.goto]
  | fwrite hpc =>
    have hlength := p.file.length_fwrite ((p.threads a.task).written a.unwritten)
    have hwritten : ((p.threads a.task).written a.unwritten).length ≤
        (p.threads a.task).vars.package.length := List.length_take_le' _ _
    refine ⟨?_, by simp [Pool.set, Thread.goto, Thread.write], Or.inl howner⟩
    simp only [Pool.work, hpc, Pool.set, Thread.goto, Function.update_self]
    omega
  | seekStart hpc =>
    refine ⟨?_, by simp [Pool.set, Thread.goto, Thread.clear], Or.inl howner⟩
    have hleft := (if a.seeks then p.file.seekStart else p.file).left_le
    have hcontent : (if a.seeks then p.file.seekStart else p.file).content = p.file.content := by
      split
      · rfl
      · rfl
    rw [hcontent] at hleft
    simp only [Pool.work, hpc, Pool.set, Thread.goto, Function.update_self]
    omega
  | atEnd hpc heof =>
    refine ⟨?_, by simp [Pool.set, Thread.goto], Or.inl howner⟩
    simp [Pool.work, hpc, Pool.set, Thread.goto]
  | notAtEnd hpc heof =>
    refine ⟨?_, by simp [Pool.set, Thread.goto], Or.inl howner⟩
    simp [Pool.work, hpc, Pool.set, Thread.goto]
  | fread hpc =>
    have heof := h.guarded.reads a.task hpc
    rw [hpc] at hcollects
    simp only at hcollects
    have hless := p.file.left_fread (p.threads a.task).vars.currentMaxSize.toNat (by omega) heof
    refine ⟨?_, by simp [Pool.set, Thread.goto, Thread.store], Or.inl howner⟩
    simp only [Pool.work, hpc, Pool.set, Thread.goto, Function.update_self, herror]
    omega
  | send hpc _ =>
    refine ⟨?_, by simp [Pool.set, Thread.goto, Thread.send], Or.inl howner⟩
    simp [Pool.work, hpc, Pool.set, Thread.goto]
  | unlock hpc =>
    have hdone := (p.threads a.task).complete.endTurn_done a.stale rfl
    refine ⟨?_, by simp [Pool.set, Thread.endTurn, Thread.complete], Or.inr ?_⟩
    · simp [Pool.work, hpc, Pool.set, hdone]
    · simp only [Pool.set, Function.update_self]
      exact hdone

/-- While one thread is inside, the others can do nothing but receive. -/
theorem Guarded.step_outside {p q : Pool} (h : Guarded p) {i : ℕ} (howner : p.owner = some i)
    {a : Input} (hi : i ≠ a.task) (hstep : p.step a = some q) :
    q.file = p.file ∧ q.owner = p.owner := by
  have hout : (p.threads a.task).pc.inside = false :=
    h.not_inside hi ((h.holder i).mpr howner)
  cases Pool.moves_of_step hstep with
  | failed => exact ⟨rfl, rfl⟩
  | received => exact ⟨rfl, rfl⟩
  | lock hpc hfree =>
    rw [hfree] at howner
    cases howner
  | _ hpc =>
    rw [hpc] at hout
    cases hout

/-- The number of calls that thread `i` makes. -/
def callsOf (i : ℕ) (inputs : List Input) : ℕ := inputs.countP (fun a => a.task = i)

theorem callsOf_concat (i : ℕ) (inputs : List Input) (a : Input) :
    callsOf i (inputs ++ [a]) = callsOf i inputs + if a.task = i then 1 else 0 := by
  simp [callsOf, List.countP_cons]

/-- What the calls since then have left of the work of thread `i` in `p`. -/
structure Works (p : Pool) (i : ℕ) (inputs : List Input) (q : Pool) : Prop where
  sound : Sound q
  received : (q.threads i).received = (p.threads i).received
  bound : callsOf i inputs + q.work i ≤ p.work i
  place : q.owner = some i ∨ (q.threads i).pc = .done

theorem Works.step {p q r : Pool} {i : ℕ} {inputs : List Input} (h : Works p i inputs q)
    (hsize : (p.threads i).received.length < 2 ^ 29) {a : Input}
    (herror : a.task = i → a.error = none) (hstep : q.step a = some r) :
    Works p i (inputs ++ [a]) r := by
  have hcalls := callsOf_concat i inputs a
  have hbound := h.bound
  by_cases hi : i = a.task
  · subst hi
    rw [if_pos rfl] at hcalls
    rcases h.place with howner | hdone
    · obtain ⟨hless, hreceived, hplace⟩ :=
        h.sound.work_lt hstep howner (herror rfl) (by rw [h.received]; exact hsize)
      exact ⟨h.sound.step hstep, hreceived.trans h.received, by omega, hplace⟩
    · simp only [Pool.step, hdone] at hstep
      cases hstep
  · have hsame := Pool.step_others hstep hi
    rw [if_neg (Ne.symm hi)] at hcalls
    rcases h.place with howner | hdone
    · obtain ⟨hfile, hkept⟩ := h.sound.guarded.step_outside howner hi hstep
      have hwork : r.work i = q.work i := by
        unfold Pool.work
        rw [hsame, hfile]
      refine ⟨h.sound.step hstep, by rw [hsame, h.received], by omega, Or.inl ?_⟩
      rw [hkept, howner]
    · have hwork : r.work i = 0 := by
        unfold Pool.work
        rw [hsame, hdone]
      refine ⟨h.sound.step hstep, by rw [hsame, h.received], by omega, Or.inr ?_⟩
      rw [hsame, hdone]

/-- Thread `i` is in its reading loop, and the end of the file has not been noted. -/
structure Reading (p : Pool) (i : ℕ) : Prop where
  owner : p.owner = some i
  eof : p.file.eof = false
  place : (p.threads i).pc = .feof ∨ (p.threads i).pc = .fread ∨ (p.threads i).pc = .send

/-- A read that fails does not note the end of the file, so the loop goes on. -/
theorem Reading.step {p q : Pool} {i : ℕ} (h : Reading p i) (hguarded : Guarded p) {a : Input}
    (herror : a.task = i → a.error.isSome = true) (hstep : p.step a = some q) : Reading q i := by
  by_cases hi : i = a.task
  · subst hi
    obtain ⟨n, hn⟩ := Option.isSome_iff_exists.mp (herror rfl)
    have hplace := h.place
    cases Pool.moves_of_step hstep with
    | atEnd _ heof =>
      rw [h.eof] at heof
      cases heof
    | notAtEnd => exact ⟨h.owner, h.eof, by simp [Pool.set, Thread.goto]⟩
    | fread =>
      refine ⟨h.owner, ?_, by simp [Pool.set, Thread.goto]⟩
      simp [Stream.fread, h.eof, hn]
    | send => exact ⟨h.owner, h.eof, by simp [Pool.set, Thread.goto]⟩
    | _ hpc =>
      rw [hpc] at hplace
      simp at hplace
  · obtain ⟨hfile, howner⟩ := hguarded.step_outside h.owner hi hstep
    have hsame := Pool.step_others hstep hi
    exact ⟨howner.trans h.owner, by rw [hfile, h.eof], by rw [hsame]; exact h.place⟩

/-- A thread whose reads all fail never leaves its reading loop and keeps the mutex. -/
theorem mutex_kept (file : Stream) (before : List Input) (p : Pool)
    (hbefore : Runs.run Pool.step (Pool.start file) before = some p) (i : ℕ)
    (hreading : Reading p i) (inputs : List Input)
    (herror : ∀ a ∈ inputs, a.task = i → a.error.isSome = true) (q : Pool)
    (hrun : Runs.run Pool.step p inputs = some q) : Reading q i := by
  have hboth : Sound q ∧ Reading q i := by
    refine Runs.run_invariant (fun u => Sound u ∧ Reading u i)
      (fun _ a => a.task = i → a.error.isSome = true) ⟨.of_run file before p hbefore, hreading⟩
      ?_ inputs ?_ hrun
    · rintro u a v ⟨hsound, hu⟩ hfails hstep
      exact ⟨hsound.step hstep, hu.step hsound.guarded hfails hstep⟩
    · intro done a rest u hsplit _
      exact herror a (by simp [hsplit])
  exact hboth.2

end Aesd.ThreadFunc
