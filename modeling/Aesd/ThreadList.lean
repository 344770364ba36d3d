import Aesd.AcceptLoop

/-!
The list of nodes of the accept loop against the threads that have been created: it has them
all but one that is just being linked, newest first, and the nodes beside them are those of
failed calls of `pthread_create`.
-/
namespace Aesd.Acceptor

/-- The list from `head` on against the threads that have been created. -/
structure Listed (s : Process) : Prop where
  absent : ∀ n, s.accepted ≤ n → s.stage n = .absent
  busy : s.pc.busy = true → 0 < s.accepted
  uncreated : s.inFlight s.current = true → s.stage s.current = .absent
  linking : s.pc = .link → s.stage s.current ≠ .absent
  head_iff : ∀ n, n ∈ s.head ↔ s.stage n ≠ .absent ∧ ¬ (s.pc = .link ∧ s.accepted = n + 1)
  sorted : s.head.Pairwise (· > ·)
  count : s.numThreads = s.head.length
  nodes : s.nodes.length =
    s.head.length + s.createFailed + if s.pc = .create ∨ s.pc = .link then 1 else 0

/-- The main thread is not busy with a connection that has a thread. -/
theorem Listed.not_inFlight {s : Process} (h : Listed s) {n : ℕ} (hn : s.stage n ≠ .absent) :
    s.inFlight n = false := by
  rw [Bool.eq_false_iff]
  intro hfly
  have haccepted : s.accepted = n + 1 := by
    simp only [Process.inFlight, Bool.and_eq_true, decide_eq_true_eq] at hfly
    exact hfly.1
  have hcurrent : s.current = n := by
    unfold Process.current
    omega
  rw [← hcurrent] at hn hfly
  exact hn (h.uncreated hfly)

/-- A thread that has been created goes on to another stage. -/
theorem Listed.advance {s : Process} (h : Listed s) {n : ℕ} {stage : Stage}
    (hn : s.stage n ≠ .absent) (hstage : stage ≠ .absent) (fds : Store Fd) (infos : List ℕ)
    (closed : Bool) : Listed { s with
      fds := fds, infos := infos, sockfdClosed := closed
      stage := Function.update s.stage n stage } := by
  have habsent : ∀ m, Function.update s.stage n stage m = .absent ↔ s.stage m = .absent := by
    intro m
    by_cases hm : m = n
    · subst hm
      simp [hn, hstage]
    · rw [Function.update_of_ne hm]
  refine ⟨?_, h.busy, ?_, ?_, ?_, h.sorted, h.count, h.nodes⟩
  · intro m hm
    exact (habsent m).mpr (h.absent m hm)
  · intro hflight
    exact (habsent _).mpr (h.uncreated hflight)
  · intro hlink
    exact mt (habsent _).mp (h.linking hlink)
  · intro m
    rw [h.head_iff m]
    exact and_congr_left' (not_congr (habsent m)).symm

/-- The main thread goes on without creating or linking anything. -/
theorem Listed.move {s t : Process} (h : Listed s)
    (hsame : t.stage = s.stage ∧ t.accepted = s.accepted ∧ t.head = s.head ∧
      t.numThreads = s.numThreads) (hpc : s.pc ≠ .link ∧ t.pc ≠ .link)
    (hbusy : t.pc.busy = true → 0 < s.accepted)
    (hflight : t.inFlight t.current = true → s.inFlight s.current = true)
    (hnodes : t.nodes.length = s.head.length + t.createFailed + if t.pc = .create then 1 else 0) :
    Listed t := by
  obtain ⟨hstage, haccepted, hhead, hthreads⟩ := hsame
  have hcurrent : t.current = s.current := by rw [Process.current, haccepted]; rfl
  refine ⟨?_, ?_, ?_, ?_, ?_, ?_, ?_, ?_⟩
  · rw [hstage, haccepted]
    exact h.absent
  · rw [haccepted]
    exact hbusy
  · rw [hstage]
    intro hfly
    rw [hcurrent]
    exact h.uncreated (hflight hfly)
  · intro hlink
    exact absurd hlink hpc.2
  · intro n
    rw [hhead, hstage, h.head_iff n]
    simp [hpc.1, hpc.2]
  · rw [hhead]
    exact h.sorted
  · rw [hthreads, hhead]
    exact h.count
  · rw [hhead, hnodes]
    simp [hpc.2]

theorem Listed.current_succ {s : Process} (h : Listed s) (hbusy : s.pc.busy = true) :
    s.current + 1 = s.accepted := by
  have hpos := h.busy hbusy
  unfold Process.current
  omega

/-- `accept` has failed. -/
theorem Listed.fails {s : Process} (h : Listed s) (hpc : s.pc = .accept ∨ s.pc = .accepting) :
    Listed { s.closeFile with pc := .returned } := by
  have hnodes := h.nodes
  rcases hpc with hpc | hpc
  · refine h.move ⟨rfl, rfl, rfl, rfl⟩ (by simp [hpc]) (by simp [Pc.busy])
      (by simp [Process.inFlight]) ?_
    simpa [hpc, Process.closeFile, Process.closeNumber] using hnodes
  · refine h.move ⟨rfl, rfl, rfl, rfl⟩ (by simp [hpc]) (by simp [Pc.busy])
      (by simp [Process.inFlight]) ?_
    simpa [hpc, Process.closeFile, Process.closeNumber] using hnodes

/-- What the main thread does; a thread it creates is not in the list before the next step. -/
theorem Listed.main {s t : Process} (h : Listed s) (fd : Option ℕ)
    (hstep : s.mainStep fd = some t) : Listed t := by
  have hhead := h.head_iff
  have hnodes := h.nodes
  have hpos := h.busy
  have hbusy : s.pc.busy = true → s.current + 1 = s.accepted := h.current_succ
  unfold Process.mainStep at hstep
  cases hpc : s.pc with
  | accept =>
    rw [hpc] at hstep
    simp only [hpc, reduceCtorEq, or_self, if_false] at hnodes
    simp only at hstep
    split at hstep
    · cases hstep
      refine h.move ⟨rfl, rfl, rfl, rfl⟩ (by simp [hpc]) (by simp [Pc.busy])
        (by simp [Process.inFlight]) ?_
      simpa using hnodes
    · cases hstep
      exact h.fails (Or.inl hpc)
  | accepting =>
    rw [hpc] at hstep
    simp only [hpc, reduceCtorEq, or_self, if_false] at hnodes
    cases fd with
    | none =>
      cases hstep
      exact h.fails (Or.inr hpc)
    | some pick =>
      cases hstep
      refine ⟨?_, fun _ => Nat.succ_pos _, fun _ => h.absent _ le_rfl, by simp, ?_, h.sorted,
        h.count, by simpa using hnodes⟩
      · intro n hn
        exact h.absent n (Nat.le_of_succ_le hn)
      · simpa [hpc] using hhead
  | mallocInfo =>
    rw [hpc] at hstep
    rw [hpc] at hpos
    simp only [hpc, reduceCtorEq, or_self, if_false] at hnodes
    have hfly : s.inFlight s.current = true := by simp [Process.inFlight, hpc, hbusy, Pc.busy]
    cases fd with
    | none =>
      cases hstep
      exact h.move ⟨rfl, rfl, rfl, rfl⟩ (by simp [hpc]) (by simp [Pc.busy]) (fun _ => hfly) hnodes
    | some _ =>
      cases hstep
      refine h.move ⟨rfl, rfl, rfl, rfl⟩ (by simp [hpc]) (fun _ => hpos rfl)
        (fun _ => hfly) ?_
      simpa using hnodes
  | mallocNode =>
    rw [hpc] at hstep
    rw [hpc] at hpos
    simp only [hpc, reduceCtorEq, or_self, if_false] at hnodes
    have hfly : s.inFlight s.current = true := by simp [Process.inFlight, hpc, hbusy, Pc.busy]
    cases fd with
    | none =>
      cases hstep
      exact h.move ⟨rfl, rfl, rfl, rfl⟩ (by simp [hpc]) (by simp [Pc.busy]) (fun _ => hfly) hnodes
    | some _ =>
      cases hstep
      refine h.move ⟨rfl, rfl, rfl, rfl⟩ (by simp [hpc]) (fun _ => hpos rfl)
        (fun _ => hfly) ?_
      simp [hnodes]
  | create =>
    rw [hpc] at hstep
    simp only [hpc, true_or, if_true] at hnodes
    have hfly : s.inFlight s.current = true := by simp [Process.inFlight, hpc, hbusy, Pc.busy]
    cases fd with
    | none =>
      cases hstep
      refine h.move ⟨rfl, rfl, rfl, rfl⟩ (by simp [hpc]) (by simp [Pc.busy]) (fun _ => hfly) ?_
      simp only [Process.freeInfo, Process.closeClient, reduceCtorEq, if_false]
      omega
    | some _ =>
      cases hstep
      have hcurrent := hbusy (by rw [hpc]; rfl)
      refine ⟨?_, fun _ => by simp only; omega, by simp [Process.inFlight], ?_, ?_, h.sorted,
        h.count, by simpa using hnodes⟩
      · intro n hn
        have hne : n ≠ s.current := by
          simp only at hn
          omega
        exact (Function.update_of_ne hne ..).trans (h.absent n hn)
      · intro _
        change Function.update s.stage s.current .created s.current ≠ .absent
        simp
      · intro n
        simp only [hpc, reduceCtorEq, false_and, not_false_eq_true, and_true] at hhead
        rw [hhead n]
        by_cases hn : n = s.current
        · subst hn
          simp [h.uncreated hfly, hcurrent]
        · have hother : ¬ s.accepted = n + 1 := by omega
          simp [Function.update_of_ne hn, hother]
  | link =>
    rw [hpc] at hstep
    cases hstep
    have hcurrent := hbusy (by rw [hpc]; rfl)
    have hlinked := h.linking hpc
    simp only [hpc, or_true, if_true] at hnodes
    simp only [hpc, true_and] at hhead
    refine ⟨h.absent, by simp [Pc.busy], by simp [Process.inFlight], by simp, ?_, ?_,
      by simp [h.count], ?_⟩
    · intro n
      simp only [List.mem_cons, hhead n, reduceCtorEq, false_and, not_false_eq_true, and_true]
      by_cases hn : n = s.current
      · subst hn
        simp [hlinked]
      · have hother : ¬ s.accepted = n + 1 := by omega
        simp [hn, hother]
    · refine List.pairwise_cons.mpr ⟨?_, h.sorted⟩
      intro n hn
      obtain ⟨hstage, hne⟩ := (hhead n).mp hn
      have hlt : n < s.accepted := by
        by_contra hge
        exact hstage (h.absent n (by omega))
      omega
    · simp only [List.length_cons, reduceCtorEq, or_self, if_false]
      omega
  | returned =>
    rw [hpc] at hstep
    cases hstep

end Aesd.Acceptor
