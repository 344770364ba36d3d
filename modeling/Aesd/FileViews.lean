import Aesd.OpenFiles

/-!
What cannot be told from the replies of the driver: where the allocator has put the blocks,
and what other files have been used for, as long as nothing is written through them.
-/
namespace Aesd.Driver

open Traces

/-- A call without what the allocator decides: only whether there is a block is left. -/
def WriteCall.erase (call : WriteCall) : WriteCall :=
  { call with pick := call.pick.map (fun _ => 0), stale := fun _ => 0 }

def FileCall.erase : FileCall → FileCall
  | .write call => .write call.erase
  | call => call

def Request.erase : Request → Request
  | .call i c => .call i c.erase
  | r => r

theorem WriteCall.refusal_erase (call : WriteCall) : call.erase.refusal = call.refusal := by
  simp only [refusal, erase, Option.map_eq_none_iff]

theorem WriteCall.payload_erase (call : WriteCall) : call.erase.payload = call.payload := by
  unfold payload
  rw [call.refusal_erase]
  rfl

theorem Memory.exec_erase (m : Memory) (pos : ℤ) (call : FileCall) :
    m.exec pos call.erase = m.exec pos call := by
  cases call with
  | write call =>
    simp only [FileCall.erase, Memory.exec, Memory.write, call.refusal_erase, call.payload_erase]
    rfl
  | read count uncopied => rfl
  | llseek off whence => rfl
  | ioctl cmd arg interrupted => rfl

theorem Memory.step_erase (s : Files Memory) (r : Request) :
    s.step Memory.exec r.erase = s.step Memory.exec r := by
  cases r with
  | call i call => simp only [Request.erase, Files.step, Memory.exec_erase]
  | openFile i => rfl
  | release i => rfl

/-- Where the allocator puts the blocks, whether it moves them and what it leaves in them
can never be told from what the calls return. -/
theorem replies_eq_of_erase_eq (requests requests' : List Request)
    (h : requests.map Request.erase = requests'.map Request.erase) :
    outputs (Files.step Kernel.exec) Files.init requests =
      outputs (Files.step Kernel.exec) Files.init requests' := by
  rw [sameFiles_init.outputs_eq, sameFiles_init.outputs_eq, ← outputs_map _ Memory.step_erase, h,
    outputs_map _ Memory.step_erase]

/-- Two writes of one command, with the block moved and with the block enlarged in place,
and a read of it. -/
theorem replies_eq_moved_block :
    outputs (Files.step Kernel.exec) Files.init [.openFile 0,
        .call 0 (.write (.granted ⟨[97], by decide⟩ 3)),
        .call 0 (.write (.granted ⟨[10], by decide⟩ 7)), .openFile 1, .call 1 (.read 9 0)] =
      outputs (Files.step Kernel.exec) Files.init [.openFile 0,
        .call 0 (.write (.granted ⟨[97], by decide⟩ 5)),
        .call 0 (.write (.granted ⟨[10], by decide⟩ 5)), .openFile 1, .call 1 (.read 9 0)] :=
  replies_eq_of_erase_eq _ _ rfl

/-- All but the requests that can only move the position of a file that is not watched. -/
def Request.shown (watched : ℕ → Bool) : Request → Bool
  | .call i c => watched i || c.isWrite
  | _ => true

/-- The same device, the same files open, and the watched ones at the same positions. -/
structure SameView (watched : ℕ → Bool) (s t : Files Memory) : Prop where
  device : s.device = t.device
  fPos : ∀ i, watched i = true → s.fPos i = t.fPos i
  isOpen : ∀ i, (s.fPos i).isSome = (t.fPos i).isSome

/-- What a write does to the device, and what it returns, does not depend on the position. -/
theorem Memory.write_pos {m m' : Memory} {pos pos' ret : ℤ} {call : WriteCall}
    (h : m.write pos call = some (m', pos', ret)) (q : ℤ) :
    ∃ q', m.write q call = some (m', q', ret) := by
  unfold Memory.write at h ⊢
  cases hpending : m.pending with
  | none =>
    rw [hpending] at h
    obtain ⟨errno, hrefusal, h⟩ := Option.bind_eq_some_iff.mp h
    obtain ⟨hne, heq⟩ := Option.ite_none_left_eq_some.mp h
    cases Option.some.inj heq
    exact ⟨q, by rw [hrefusal, Option.bind_some, if_neg hne]⟩
  | some pending =>
    rw [hpending] at h
    cases hrefusal : call.refusal with
    | some errno =>
      rw [hrefusal] at h
      cases Option.some.inj h
      exact ⟨q, rfl⟩
    | none =>
      rw [hrefusal] at h
      simp only at h ⊢
      split at h
      · cases h
      · rename_i hfits
        rw [if_neg hfits]
        split at h
        · rename_i hfault
          cases Option.some.inj h
          exact ⟨q, by rw [if_pos hfault]⟩
        · rename_i hcopy
          cases Option.some.inj h
          exact ⟨_, by rw [if_neg hcopy]⟩

/-- A call that is no write leaves the device alone. -/
theorem Memory.exec_device {m : Memory} {pos : ℤ} {call : FileCall} {out : Memory × ℤ × Reply}
    (hcall : call.isWrite = false) (h : m.exec pos call = some out) : out.1 = m := by
  cases call with
  | write call => cases hcall
  | read count uncopied =>
    cases Option.some.inj h
    rfl
  | llseek off whence =>
    cases Option.some.inj h
    rfl
  | ioctl cmd arg interrupted =>
    cases Option.some.inj h
    rfl

section Views

variable {watched : ℕ → Bool} {s t : Files Memory}

/-- Changing the same file to positions that agree if the file is watched. -/
theorem SameView.update (h : SameView watched s t) (device : Memory) (i : ℕ) (p q : Option ℤ)
    (hpq : watched i = true → p = q) (hopen : p.isSome = q.isSome) :
    SameView watched ⟨device, Function.update s.fPos i p⟩
      ⟨device, Function.update t.fPos i q⟩ where
  device := rfl
  fPos j hj := by
    by_cases hij : j = i
    · subst hij
      simp only [Function.update_self]
      exact hpq hj
    · simp only [Function.update_of_ne hij]
      exact h.fPos j hj
  isOpen j := by
    by_cases hij : j = i
    · subst hij
      simp only [Function.update_self]
      exact hopen
    · simp only [Function.update_of_ne hij]
      exact h.isOpen j

theorem SameView.skip (h : SameView watched s t) {r : Request} {out : Files Memory × Reply}
    (hr : r.shown watched = false) (hstep : s.step Memory.exec r = some out) :
    SameView watched out.1 t := by
  cases r with
  | openFile i => cases hr
  | release i => cases hr
  | call i call =>
    obtain ⟨hwatched, hwrite⟩ := Bool.or_eq_false_iff.mp hr
    obtain ⟨pos, hpos, hmap⟩ := Option.bind_eq_some_iff.mp hstep
    obtain ⟨res, hexec, rfl⟩ := Option.map_eq_some_iff.mp hmap
    have hdevice := Memory.exec_device hwrite hexec
    refine ⟨hdevice.trans h.device, ?_, ?_⟩
    · intro j hj
      have hne : j ≠ i := by
        rintro rfl
        cases hwatched.symm.trans hj
      simp only [Function.update_of_ne hne]
      exact h.fPos j hj
    · intro j
      by_cases hij : j = i
      · subst hij
        simp only [Function.update_self, Option.isSome_some]
        rw [← h.isOpen j, hpos, Option.isSome_some]
      · simp only [Function.update_of_ne hij]
        exact h.isOpen j

theorem SameView.keep (h : SameView watched s t) {r : Request} {out : Files Memory × Reply}
    (hr : r.shown watched = true) (hstep : s.step Memory.exec r = some out) :
    ∃ t', t.step Memory.exec r = some (t', out.2) ∧ SameView watched out.1 t' := by
  have hdevice := h.device
  cases r with
  | openFile i =>
    have hopen := h.isOpen i
    simp only [Files.step] at hstep ⊢
    cases hs : s.fPos i with
    | some pos =>
      rw [hs] at hstep
      cases hstep
    | none =>
      rw [hs] at hstep hopen
      cases Option.some.inj hstep
      have ht : t.fPos i = none := by simpa using hopen.symm
      rw [ht]
      refine ⟨_, rfl, ?_⟩
      rw [hdevice]
      exact h.update t.device i (some 0) (some 0) (fun _ => rfl) rfl
  | release i =>
    have hopen := h.isOpen i
    simp only [Files.step] at hstep ⊢
    cases hs : s.fPos i with
    | none =>
      rw [hs] at hstep
      cases hstep
    | some pos =>
      rw [hs] at hstep hopen
      cases Option.some.inj hstep
      obtain ⟨q, ht⟩ := Option.isSome_iff_exists.mp hopen.symm
      rw [ht]
      refine ⟨_, rfl, ?_⟩
      rw [hdevice]
      exact h.update t.device i none none (fun _ => rfl) rfl
  | call i call =>
    obtain ⟨pos, hpos, hmap⟩ := Option.bind_eq_some_iff.mp hstep
    obtain ⟨⟨m, pos', reply⟩, hexec, rfl⟩ := Option.map_eq_some_iff.mp hmap
    rw [hdevice] at hexec
    by_cases hwatched : watched i = true
    · have ht : t.fPos i = some pos := by rw [← h.fPos i hwatched, hpos]
      exact ⟨_, Files.step_call ht hexec,
        h.update m i (some pos') (some pos') (fun _ => rfl) rfl⟩
    · have hwrite : call.isWrite = true := by
        simpa [Request.shown, hwatched] using hr
      obtain ⟨q, ht⟩ := Option.isSome_iff_exists.mp (show (t.fPos i).isSome = true by
        rw [← h.isOpen i, hpos, Option.isSome_some])
      cases call with
      | write call =>
        obtain ⟨⟨m', p', ret⟩, hw, heq⟩ := Option.map_eq_some_iff.mp hexec
        cases heq
        obtain ⟨q', hq⟩ := Memory.write_pos hw q
        have hexec' : t.device.exec q (.write call) = some (m', q', ⟨ret, []⟩) := by
          rw [Memory.exec, hq, Option.map_some]
        exact ⟨_, Files.step_call ht hexec',
          h.update m' i (some p') (some q') (fun hyes => absurd hyes hwatched) rfl⟩
      | read count uncopied => cases hwrite
      | llseek off whence => cases hwrite
      | ioctl cmd arg interrupted => cases hwrite

end Views

/-- Reads and seeks through other files are never noticed: without them, the remaining
requests return what they have returned with them. -/
theorem replies_without_others (watched : ℕ → Bool) (requests : List Request)
    (replies : List Reply)
    (h : outputs (Files.step Kernel.exec) Files.init requests = some replies) :
    outputs (Files.step Kernel.exec) Files.init (requests.filter (Request.shown watched)) =
      some (kept (Request.shown watched) requests replies) := by
  rw [sameFiles_init.outputs_eq] at h ⊢
  obtain ⟨⟨s, os⟩, htrace, rfl⟩ := Option.map_eq_some_iff.mp h
  obtain ⟨t, ht, _⟩ := trace_filter (Request.shown watched) (SameView watched)
    (fun _ _ _ _ hr hview hstep => hview.keep hr hstep)
    (fun _ _ _ _ hr hview hstep => hview.skip hr hstep)
    ⟨rfl, fun _ _ => rfl, fun _ => rfl⟩ htrace
  rw [outputs, ht, Option.map_some]

/-- File 1 reads the line that file 0 has written, whether or not file 2 reads it too. -/
theorem replies_without_third_file :
    outputs (Files.step Kernel.exec) Files.init [.openFile 0, .openFile 1, .openFile 2,
        .call 0 (.write (.granted ⟨[97, 10], by decide⟩ 3)), .call 1 (.read 9 0)] =
      some [⟨0, []⟩, ⟨0, []⟩, ⟨0, []⟩, ⟨2, []⟩, ⟨2, [97, 10]⟩] :=
  replies_without_others (fun i => i == 1) [.openFile 0, .openFile 1, .openFile 2,
    .call 0 (.write (.granted ⟨[97, 10], by decide⟩ 3)), .call 2 (.read 1 0),
    .call 2 (.llseek 7 .seekSet), .call 1 (.read 9 0)]
    [⟨0, []⟩, ⟨0, []⟩, ⟨0, []⟩, ⟨2, []⟩, ⟨1, [97]⟩, ⟨7, []⟩, ⟨2, [97, 10]⟩] (by decide)

end Aesd.Driver
