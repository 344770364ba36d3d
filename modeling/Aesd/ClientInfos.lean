import Aesd.ThreadList

/-!
The `client_info` blocks of the accept loop. A block is allocated from the `malloc` of the
main thread on until the main thread gives the connection up or its thread begins.
-/
namespace Aesd.Acceptor

/-- The allocated `client_info` blocks. -/
structure Informed (s : Process) : Prop where
  nodup : s.infos.Nodup
  mem_iff : ∀ n, n ∈ s.infos ↔ s.HasInfo n

/-- When the main thread frees the block of its connection, those of the threads stay. -/
theorem Informed.mem_erase_iff {s : Process} (h : Informed s)
    (hcurrent : s.current + 1 = s.accepted)
    (habsent : s.stage s.current = .absent) (n : ℕ) :
    n ∈ s.infos.erase s.current ↔ s.stage n = .created := by
  rw [h.nodup.mem_erase_iff, h.mem_iff n, Process.HasInfo]
  by_cases hn : n = s.current
  · simp [hn, habsent]
  · have hother : ¬ s.accepted = n + 1 := by omega
    simp [hn, hother]

theorem Informed.main {s t : Process} (h : Informed s) (hlisted : Listed s) (fd : Option ℕ)
    (hstep : s.mainStep fd = some t) : Informed t := by
  have hmem := h.mem_iff
  have hbusy : s.pc.busy = true → s.current + 1 = s.accepted := hlisted.current_succ
  unfold Process.HasInfo at hmem
  unfold Process.mainStep at hstep
  cases hpc : s.pc with
  | accept =>
    rw [hpc] at hstep
    simp only [hpc, reduceCtorEq, or_self, and_false, or_false] at hmem
    simp only at hstep
    split at hstep
    · cases hstep
      exact ⟨h.nodup, by simpa [Process.HasInfo] using hmem⟩
    · cases hstep
      exact ⟨h.nodup, by simpa [Process.HasInfo, Process.closeFile, Process.closeNumber] using hmem⟩
  | accepting =>
    rw [hpc] at hstep
    simp only [hpc, reduceCtorEq, or_self, and_false, or_false] at hmem
    cases fd with
    | none =>
      cases hstep
      exact ⟨h.nodup, by simpa [Process.HasInfo, Process.closeFile, Process.closeNumber] using hmem⟩
    | some pick =>
      cases hstep
      exact ⟨h.nodup, by simpa [Process.HasInfo] using hmem⟩
  | mallocInfo =>
    rw [hpc] at hstep
    have hcurrent := hbusy (by rw [hpc]; rfl)
    have hfly : s.inFlight s.current = true := by simp [Process.inFlight, hpc, hcurrent]
    have hout : s.current ∉ s.infos := by simp [hmem, hlisted.uncreated hfly, hpc]
    simp only [hpc, reduceCtorEq, or_self, and_false, or_false] at hmem
    cases fd with
    | none =>
      cases hstep
      exact ⟨h.nodup, by simpa [Process.HasInfo, Process.closeClient] using hmem⟩
    | some _ =>
      cases hstep
      refine ⟨List.nodup_cons.mpr ⟨hout, h.nodup⟩, ?_⟩
      intro n
      have hiff : n = s.current ↔ s.accepted = n + 1 := by omega
      simp [Process.HasInfo, hmem, hiff, or_comm]
  | mallocNode =>
    rw [hpc] at hstep
    have hcurrent := hbusy (by rw [hpc]; rfl)
    have hfly : s.inFlight s.current = true := by simp [Process.inFlight, hpc, hcurrent]
    have habsent := hlisted.uncreated hfly
    cases fd with
    | none =>
      cases hstep
      refine ⟨h.nodup.erase _, ?_⟩
      simpa [Process.HasInfo, Process.freeInfo, Process.closeClient] using
        h.mem_erase_iff hcurrent habsent
    | some _ =>
      cases hstep
      exact ⟨h.nodup, by simpa [Process.HasInfo, hpc] using hmem⟩
  | create =>
    rw [hpc] at hstep
    have hcurrent := hbusy (by rw [hpc]; rfl)
    have hfly : s.inFlight s.current = true := by simp [Process.inFlight, hpc, hcurrent]
    have habsent := hlisted.uncreated hfly
    cases fd with
    | none =>
      cases hstep
      refine ⟨h.nodup.erase _, ?_⟩
      simpa [Process.HasInfo, Process.freeInfo, Process.closeClient] using
        h.mem_erase_iff hcurrent habsent
    | some _ =>
      cases hstep
      refine ⟨h.nodup, ?_⟩
      intro n
      by_cases hn : n = s.current
      · subst hn
        simp [Process.HasInfo, hmem, hpc, hcurrent]
      · have hother : ¬ s.accepted = n + 1 := by omega
        simp [Process.HasInfo, hmem, hother, Function.update_of_ne hn]
  | link =>
    rw [hpc] at hstep
    cases hstep
    exact ⟨h.nodup, by simpa [Process.HasInfo, hpc] using hmem⟩
  | returned =>
    rw [hpc] at hstep
    cases hstep

/-- A thread frees its block once, when it begins. -/
theorem Informed.begin {s t : Process} (h : Informed s) (hlisted : Listed s) {n : ℕ}
    (hstep : s.beginStep n = some t) : Informed t := by
  obtain ⟨hstage, heq⟩ := Option.ite_none_right_eq_some.mp hstep
  cases Option.some.inj heq
  refine ⟨h.nodup.erase n, ?_⟩
  intro m
  change m ∈ s.infos.erase n ↔ Function.update s.stage n .running m = .created ∨ _
  rw [h.nodup.mem_erase_iff, h.mem_iff m]
  by_cases hm : m = n
  · subst hm
    have hfree : ¬ (s.accepted = m + 1 ∧ (s.pc = .mallocNode ∨ s.pc = .create)) := by
      have hidle := hlisted.not_inFlight (n := m) (by simp [hstage])
      rintro ⟨haccepted, hpc | hpc⟩
      · simp [Process.inFlight, hpc, haccepted] at hidle
      · simp [Process.inFlight, hpc, haccepted] at hidle
    simpa [Process.freeInfo] using hfree
  · simp [hm, Process.HasInfo, Process.freeInfo]

theorem Informed.advance {s : Process} (h : Informed s) {n : ℕ} {stage : Stage}
    (hn : s.stage n = .running) (hstage : stage ≠ .created) (fds : Store Fd) (closed : Bool) :
    Informed { s with
      fds := fds, sockfdClosed := closed
      stage := Function.update s.stage n stage } := by
  refine ⟨h.nodup, ?_⟩
  intro m
  rw [h.mem_iff m]
  unfold Process.HasInfo
  by_cases hm : m = n
  · subst hm
    simp [hn, hstage]
  · simp [Function.update_of_ne hm]

end Aesd.Acceptor
