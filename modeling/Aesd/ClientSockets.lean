import Aesd.ThreadList

/-!
The sockets of the accept loop. Each client socket has one owner, the main thread or the
thread of its connection, and nobody else closes it as long as `file` and `sockfd` do not
have its number.
-/
namespace Aesd.Acceptor

/-- The open sockets. -/
structure Connected (s : Process) : Prop where
  client_iff : ∀ fd n, s.fds.data fd = some (.client n) ↔ fd = s.clientSockfd n ∧ s.HasSocket n
  listener_iff : ∀ fd, s.fds.data fd = some .listener ↔ fd = s.sockfd ∧ s.sockfdClosed = false

/-- Closing the socket of connection `n` closes no other. -/
theorem Connected.data_closeClient {s : Process} (h : Connected s) {n : ℕ} (hn : s.HasSocket n)
    (fd m : ℕ) : (s.closeClient n).fds.data fd = some (.client m) ↔
      fd = s.clientSockfd m ∧ s.HasSocket m ∧ m ≠ n := by
  have hopen : s.fds.data (s.clientSockfd n) = some (.client n) := (h.client_iff _ n).mpr ⟨rfl, hn⟩
  simp only [Process.closeClient]
  by_cases hfd : fd = s.clientSockfd n
  · subst hfd
    rw [Store.data_erase_self]
    refine iff_of_false (by simp) ?_
    rintro ⟨heq, hm, hne⟩
    have hother := (h.client_iff _ m).mpr ⟨heq, hm⟩
    rw [hopen] at hother
    cases hother
    exact hne rfl
  · rw [Store.data_erase_of_ne _ hfd, h.client_iff]
    constructor
    · rintro ⟨rfl, hm⟩
      refine ⟨rfl, hm, ?_⟩
      rintro rfl
      exact hfd rfl
    · rintro ⟨rfl, hm, _⟩
      exact ⟨rfl, hm⟩

/-- Nor does it close the listening socket. -/
theorem Connected.listener_closeClient {s : Process} (h : Connected s) {n : ℕ}
    (hn : s.HasSocket n) (fd : ℕ) :
    (s.closeClient n).fds.data fd = some .listener ↔ s.fds.data fd = some .listener := by
  have hopen : s.fds.data (s.clientSockfd n) = some (.client n) := (h.client_iff _ n).mpr ⟨rfl, hn⟩
  by_cases hfd : fd = s.clientSockfd n
  · rw [hfd, hopen, Process.closeClient, Store.data_erase_self]
    simp
  · rw [Process.closeClient, Store.data_erase_of_ne _ hfd]

theorem Connected.close {s t : Process} (h : Connected s) {n : ℕ} (hn : s.HasSocket n)
    (hfds : t.fds = (s.closeClient n).fds)
    (hsame : t.sockfd = s.sockfd ∧ t.clientSockfd = s.clientSockfd ∧
      t.sockfdClosed = s.sockfdClosed)
    (hsockets : ∀ m, t.HasSocket m ↔ s.HasSocket m ∧ m ≠ n) : Connected t := by
  obtain ⟨hsockfd, hclient, hclosed⟩ := hsame
  refine ⟨?_, ?_⟩
  · intro fd m
    rw [hfds, hclient, hsockets m]
    exact h.data_closeClient hn fd m
  · intro fd
    rw [hfds, h.listener_closeClient hn fd, hsockfd, hclosed]
    exact h.listener_iff fd

/-- A step that opens and closes nothing. -/
theorem Connected.stay {s t : Process} (h : Connected s) (hfds : t.fds = s.fds)
    (hsame : t.sockfd = s.sockfd ∧ t.clientSockfd = s.clientSockfd ∧
      t.sockfdClosed = s.sockfdClosed)
    (hsockets : ∀ m, t.HasSocket m ↔ s.HasSocket m) : Connected t := by
  obtain ⟨hsockfd, hclient, hclosed⟩ := hsame
  refine ⟨?_, ?_⟩
  · intro fd m
    rw [hfds, hclient, hsockets m]
    exact h.client_iff fd m
  · intro fd
    rw [hfds, hsockfd, hclosed]
    exact h.listener_iff fd

/-- A number that is no client's is closed through a variable. -/
theorem Connected.closeNumber {s t : Process} (h : Connected s) {fd : Option ℕ}
    (hspares : ∀ k ∈ fd, ∀ kind ∈ s.fds.data k, kind.isClient = false)
    (hfds : t.fds = (s.closeNumber fd).fds)
    (hsame : t.sockfd = s.sockfd ∧ t.clientSockfd = s.clientSockfd ∧
      t.sockfdClosed = (s.closeNumber fd).sockfdClosed)
    (hsockets : ∀ m, t.HasSocket m ↔ s.HasSocket m) : Connected t := by
  cases fd with
  | none =>
    simp only [Process.closeNumber, reduceCtorEq, decide_false, Bool.or_false] at hsame
    exact h.stay hfds hsame hsockets
  | some k =>
    obtain ⟨hsockfd, hclient, hclosed⟩ := hsame
    have herase : t.fds = s.fds.erase k := hfds
    refine ⟨?_, ?_⟩
    · intro fd m
      rw [herase, hclient, hsockets m, ← h.client_iff fd m]
      by_cases hfd : fd = k
      · rw [hfd, Store.data_erase_self]
        refine iff_of_false (by simp) ?_
        intro hopen
        exact absurd (hspares k rfl _ hopen) (by simp [Fd.isClient])
      · rw [Store.data_erase_of_ne _ hfd]
    · intro fd
      rw [herase, hsockfd, hclosed]
      by_cases hfd : fd = k
      · rw [hfd, Store.data_erase_self]
        refine iff_of_false (by simp) ?_
        rintro ⟨rfl, hopen⟩
        simp [Process.closeNumber] at hopen
      · rw [Store.data_erase_of_ne _ hfd, h.listener_iff]
        refine and_congr_right ?_
        rintro rfl
        simp [Process.closeNumber, Ne.symm hfd]

/-- The connection that the main thread is busy with is the only one in flight. -/
theorem inFlight_iff {s : Process} (hlisted : Listed s)
    (hpc : s.pc = .mallocInfo ∨ s.pc = .mallocNode ∨ s.pc = .create) (m : ℕ) :
    s.inFlight m = true ↔ m = s.current := by
  have hpos := hlisted.busy (by rcases hpc with hpc | hpc | hpc <;> simp [hpc, Pc.busy])
  have hflag : (s.pc = .mallocInfo || s.pc = .mallocNode || s.pc = .create) = true := by
    rcases hpc with hpc | hpc | hpc <;> simp [hpc]
  rw [Process.inFlight, hflag, Bool.and_true, decide_eq_true_eq, Process.current]
  omega

/-- The main thread gives its connection up. -/
theorem hasSocket_giveUp {s t : Process} (hlisted : Listed s)
    (hpc : s.pc = .mallocInfo ∨ s.pc = .mallocNode ∨ s.pc = .create) (ht : t.pc = .accept)
    (hstage : t.stage = s.stage) :
    s.HasSocket s.current ∧ ∀ m, t.HasSocket m ↔ s.HasSocket m ∧ m ≠ s.current := by
  have hfly := inFlight_iff hlisted hpc
  have habsent := hlisted.uncreated ((hfly s.current).mpr rfl)
  refine ⟨Or.inl ((hfly s.current).mpr rfl), ?_⟩
  intro m
  have hidle : t.inFlight m = false := by simp [Process.inFlight, ht]
  simp only [Process.HasSocket, hidle, hfly m, hstage]
  by_cases hm : m = s.current
  · simp [hm, habsent]
  · simp [hm]

/-- A new connection gets a number that no socket has. -/
theorem Connected.accept {s t : Process} (h : Connected s) (hlisted : Listed s)
    (hpc : s.pc = .accepting) {pick : ℕ} (hstep : s.mainStep (some pick) = some t) :
    Connected t := by
  rw [Process.mainStep, hpc] at hstep
  cases hstep
  have hidle : ∀ m, s.inFlight m = false := by
    intro m
    simp [Process.inFlight, hpc]
  have hfree := s.fds.data_fresh pick
  have hnone : ¬ s.HasSocket s.accepted := by
    simp [Process.HasSocket, hidle, hlisted.absent s.accepted le_rfl]
  refine ⟨?_, ?_⟩
  · intro fd m
    simp only
    by_cases hm : m = s.accepted
    · subst hm
      rw [Function.update_self]
      by_cases hfd : fd = s.fds.fresh pick
      · simp [hfd, Process.HasSocket, Process.inFlight]
      · rw [Store.data_set_of_ne _ _ hfd, h.client_iff]
        exact iff_of_false (fun hboth => hnone hboth.2) (fun hboth => hfd hboth.1)
    · have hsockets : Process.HasSocket { s with
          fds := s.fds.set (s.fds.fresh pick) (.client s.accepted)
          clientSockfd := Function.update s.clientSockfd s.accepted (s.fds.fresh pick)
          accepted := s.accepted + 1
          pc := .mallocInfo } m ↔ s.HasSocket m := by
        simp [Process.HasSocket, Process.inFlight, hpc, Ne.symm hm]
      rw [hsockets, Function.update_of_ne hm]
      by_cases hfd : fd = s.fds.fresh pick
      · rw [hfd, Store.data_set_self]
        refine iff_of_false (by simp [Ne.symm hm]) ?_
        intro hboth
        rw [(h.client_iff _ m).mpr hboth] at hfree
        cases hfree
      · rw [Store.data_set_of_ne _ _ hfd, h.client_iff]
  · intro fd
    rw [← h.listener_iff fd]
    by_cases hfd : fd = s.fds.fresh pick
    · rw [hfd, Store.data_set_self, hfree]
      simp
    · rw [Store.data_set_of_ne _ _ hfd]

/-- A failed `accept` closes `file`. -/
theorem Connected.fails {s : Process} (h : Connected s)
    (hspares : ∀ k ∈ s.file, ∀ kind ∈ s.fds.data k, kind.isClient = false)
    (hpc : s.pc = .accept ∨ s.pc = .accepting) :
    Connected { s.closeFile with pc := .returned } := by
  refine h.closeNumber hspares rfl ⟨rfl, rfl, rfl⟩ ?_
  intro m
  rcases hpc with hpc | hpc
  · simp [Process.HasSocket, Process.inFlight, hpc, Process.closeFile, Process.closeNumber]
  · simp [Process.HasSocket, Process.inFlight, hpc, Process.closeFile, Process.closeNumber]

/-- What the main thread does; a new thread takes the socket over from it. -/
theorem Connected.main {s t : Process} (h : Connected s) (hlisted : Listed s) (fd : Option ℕ)
    (hspares : s.Spares (.main fd)) (hstep : s.mainStep fd = some t) : Connected t := by
  simp only [Process.Spares, Process.closes] at hspares
  unfold Process.mainStep at hstep
  cases hpc : s.pc with
  | accept =>
    rw [hpc] at hstep
    simp only at hstep
    split at hstep
    · cases hstep
      refine h.stay rfl ⟨rfl, rfl, rfl⟩ ?_
      intro m
      simp [Process.HasSocket, Process.inFlight, hpc]
    · rename_i hclosed
      cases hstep
      rw [if_pos (Or.inl ⟨hpc, hclosed⟩)] at hspares
      exact h.fails hspares (Or.inl hpc)
  | accepting =>
    rw [hpc] at hstep
    cases fd with
    | none =>
      cases hstep
      rw [if_pos (Or.inr ⟨hpc, rfl⟩)] at hspares
      exact h.fails hspares (Or.inr hpc)
    | some pick =>
      apply h.accept hlisted hpc
      rw [Process.mainStep, hpc]
      exact hstep
  | mallocInfo =>
    rw [hpc] at hstep
    cases fd with
    | none =>
      cases hstep
      obtain ⟨hhas, hsockets⟩ := hasSocket_giveUp hlisted (Or.inl hpc)
        (t := { s.closeClient s.current with pc := .accept }) rfl rfl
      exact h.close hhas rfl ⟨rfl, rfl, rfl⟩ hsockets
    | some _ =>
      cases hstep
      refine h.stay rfl ⟨rfl, rfl, rfl⟩ ?_
      intro m
      simp [Process.HasSocket, Process.inFlight, hpc]
  | mallocNode =>
    rw [hpc] at hstep
    cases fd with
    | none =>
      cases hstep
      obtain ⟨hhas, hsockets⟩ := hasSocket_giveUp hlisted (Or.inr (Or.inl hpc))
        (t := { (s.closeClient s.current).freeInfo s.current with pc := .accept }) rfl rfl
      exact h.close hhas rfl ⟨rfl, rfl, rfl⟩ hsockets
    | some _ =>
      cases hstep
      refine h.stay rfl ⟨rfl, rfl, rfl⟩ ?_
      intro m
      simp [Process.HasSocket, Process.inFlight, hpc]
  | create =>
    rw [hpc] at hstep
    cases fd with
    | none =>
      cases hstep
      obtain ⟨hhas, hsockets⟩ := hasSocket_giveUp hlisted (Or.inr (Or.inr hpc))
        (t := { (s.closeClient s.current).freeInfo s.current with
          createFailed := s.createFailed + 1, pc := .accept }) rfl rfl
      exact h.close hhas rfl ⟨rfl, rfl, rfl⟩ hsockets
    | some _ =>
      cases hstep
      have hfly := inFlight_iff hlisted (Or.inr (Or.inr hpc))
      refine h.stay rfl ⟨rfl, rfl, rfl⟩ ?_
      intro m
      by_cases hm : m = s.current
      · subst hm
        simp [Process.HasSocket, (hfly s.current).mpr rfl]
      · have hother : s.inFlight m = false := by
          rw [Bool.eq_false_iff]
          exact mt (hfly m).mp hm
        have hidle : ∀ stage,
            Process.inFlight { s with stage := stage, pc := .link } m = false := by
          simp [Process.inFlight]
        simp [Process.HasSocket, hother, hidle, Function.update_of_ne hm]
  | link =>
    rw [hpc] at hstep
    cases hstep
    refine h.stay rfl ⟨rfl, rfl, rfl⟩ ?_
    intro m
    simp [Process.HasSocket, Process.inFlight, hpc]
  | returned =>
    rw [hpc] at hstep
    cases hstep

/-- A thread goes on and keeps its socket. -/
theorem hasSocket_advance {s : Process} {n : ℕ} {stage : Stage}
    (hn : s.stage n = .created ∨ s.stage n = .running)
    (hstage : stage = .running ∨ stage = .stranded) (fds : Store Fd) (infos : List ℕ)
    (closed : Bool) (m : ℕ) : Process.HasSocket { s with
      fds := fds, infos := infos, sockfdClosed := closed
      stage := Function.update s.stage n stage } m ↔ s.HasSocket m := by
  by_cases hm : m = n
  · subst hm
    simp only [Process.HasSocket, Function.update_self]
    refine iff_of_true (Or.inr ?_) (Or.inr ?_)
    · exact Or.inr hstage
    · exact hn.imp_right Or.inl
  · simp [Process.HasSocket, Process.inFlight, Function.update_of_ne hm]

theorem Connected.finish {s t : Process} (h : Connected s) (hlisted : Listed s) {n : ℕ}
    {exit : Exit} (hspares : s.Spares (.finish n exit)) (hstep : s.finishStep n exit = some t) :
    Connected t := by
  obtain ⟨hstage, heq⟩ := Option.ite_none_right_eq_some.mp hstep
  have hhas : s.HasSocket n := Or.inr (Or.inr (Or.inl hstage))
  have hclosed : ∀ m, Process.HasSocket { s.closeClient n with
      stage := Function.update s.stage n .finished } m ↔ s.HasSocket m ∧ m ≠ n := by
    intro m
    change (s.inFlight m = true ∨ Function.update s.stage n .finished m = .created ∨
      Function.update s.stage n .finished m = .running ∨
      Function.update s.stage n .finished m = .stranded) ↔ _
    by_cases hm : m = n
    · subst hm
      simp [hlisted.not_inFlight (n := m) (by simp [hstage])]
    · rw [Function.update_of_ne hm]
      exact (and_iff_left hm).symm
  cases exit with
  | noPeerName =>
    cases heq
    exact h.close hhas rfl ⟨rfl, rfl, rfl⟩ hclosed
  | served =>
    cases heq
    exact h.close hhas rfl ⟨rfl, rfl, rfl⟩ hclosed
  | noWriteBuf =>
    cases heq
    exact h.stay rfl ⟨rfl, rfl, rfl⟩
      (hasSocket_advance (Or.inr hstage) (Or.inr rfl) s.fds s.infos s.sockfdClosed)
  | noBuffer =>
    cases heq
    exact h.closeNumber hspares rfl ⟨rfl, rfl, rfl⟩
      (hasSocket_advance (Or.inr hstage) (Or.inr rfl) _ s.infos _)

/-- A descriptor that is no socket of these comes or goes. -/
theorem Connected.others {s : Process} (h : Connected s) {fds : Store Fd} (file : Option ℕ)
    (hfds : ∀ fd, (fds.data fd = s.fds.data fd) ∨
      ((fds.data fd = none ∨ fds.data fd = some .other) ∧
        (s.fds.data fd = none ∨ s.fds.data fd = some .other))) :
    Connected { s with fds := fds, file := file } := by
  have hsame : ∀ fd kind, kind ≠ Fd.other → (fds.data fd = some kind ↔
      s.fds.data fd = some kind) := by
    intro fd kind hkind
    rcases hfds fd with heq | ⟨hnew, hold⟩
    · rw [heq]
    · rcases hnew with hnew | hnew <;> rcases hold with hold | hold <;>
        simp [hnew, hold, Ne.symm hkind]
  refine ⟨?_, ?_⟩
  · intro fd n
    rw [hsame fd _ (by simp)]
    exact h.client_iff fd n
  · intro fd
    rw [hsame fd _ (by simp)]
    exact h.listener_iff fd

/-- What comes with an `open`. -/
theorem Connected.opened {s : Process} (h : Connected s) (pick : ℕ) (file : Option ℕ) :
    Connected { s with fds := s.fds.set (s.fds.fresh pick) .other, file := file } := by
  apply h.others file
  intro fd
  by_cases hfd : fd = s.fds.fresh pick
  · subst hfd
    exact Or.inr ⟨Or.inr (Store.data_set_self ..), Or.inl (s.fds.data_fresh pick)⟩
  · exact Or.inl (Store.data_set_of_ne _ _ hfd)

theorem Connected.step {s t : Process} (h : Connected s) (hlisted : Listed s) (a : Act)
    (hspares : s.Spares a) (hstep : s.step a = some t) : Connected t := by
  cases a with
  | main fd => exact h.main hlisted fd hspares hstep
  | begin n =>
    obtain ⟨hstage, heq⟩ := Option.ite_none_right_eq_some.mp hstep
    cases heq
    exact h.stay rfl ⟨rfl, rfl, rfl⟩
      (hasSocket_advance (Or.inl hstage) (Or.inl rfl) s.fds (s.infos.erase n) s.sockfdClosed)
  | openFile n fd =>
    obtain ⟨_, heq⟩ := Option.ite_none_right_eq_some.mp hstep
    cases fd with
    | none =>
      cases heq
      exact ⟨h.client_iff, h.listener_iff⟩
    | some pick =>
      cases heq
      exact h.opened pick _
  | closeFile n =>
    obtain ⟨_, heq⟩ := Option.ite_none_right_eq_some.mp hstep
    cases heq
    exact h.closeNumber hspares rfl ⟨rfl, rfl, rfl⟩ (fun _ => Iff.rfl)
  | finish n exit => exact h.finish hlisted hspares hstep
  | openOther pick =>
    cases hstep
    exact h.opened pick s.file
  | closeOther fd =>
    obtain ⟨hopen, heq⟩ := Option.ite_none_right_eq_some.mp hstep
    cases heq
    apply h.others s.file
    intro fd'
    by_cases hfd : fd' = fd
    · subst hfd
      exact Or.inr ⟨Or.inl (Store.data_erase_self ..), Or.inr hopen⟩
    · exact Or.inl (Store.data_erase_of_ne _ hfd)

end Aesd.Acceptor
