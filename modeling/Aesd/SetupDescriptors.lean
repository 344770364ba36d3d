import Aesd.ServerSetup

/-!
The descriptors that the setup of the server leaves. Apart from the one of the log, which
takes a free number at the first message and may take another one later, they are known
on every path, whatever the log does.
-/
namespace Aesd.Acceptor

/-- The table before the setup, with the listening socket at its lowest free number. -/
def withListener (fds : Store Fd) (n : ℕ) : Option Fd :=
  if n = fds.lowest then some .listener else fds.data n

/-- The descriptors are those of `base`, but for the one of the log, whose number is free in
`base`; that one may have been closed. -/
structure Beside (base : ℕ → Option Fd) (t : Setup) : Prop where
  free : ∀ k ∈ t.log, base k = none
  data : ∀ n, t.fds.data n = base n ∨ (n ∈ t.log ∧ t.fds.data n = some .other)

namespace Beside

variable {base : ℕ → Option Fd} {t : Setup}

theorem close (h : Beside base t) (fd : ℕ) :
    Beside (Function.update base fd none) (t.close fd) where
  free k hk := by
    by_cases hfd : k = fd
    · rw [hfd, Function.update_self]
    · rw [Function.update_of_ne hfd]
      exact h.free k hk
  data n := by
    by_cases hfd : n = fd
    · left
      rw [hfd, Function.update_self]
      exact Store.data_erase_self ..
    · rw [Function.update_of_ne hfd, Setup.close, Store.data_erase_of_ne _ hfd]
      exact h.data n

theorem data_closelog (h : Beside base t) (n : ℕ) : t.closelog.fds.data n = base n := by
  unfold Setup.closelog
  cases hlog : t.log with
  | none =>
    have hdata := h.data n
    simp only [hlog, Option.not_mem_none, false_and, or_false] at hdata
    exact hdata
  | some k =>
    have hfree := h.free k hlog
    have hdata := h.data n
    simp only [hlog, Option.mem_some_iff] at hdata
    change (t.fds.erase k).data n = base n
    by_cases hn : n = k
    · rw [hn, Store.data_erase_self, hfree]
    · rw [Store.data_erase_of_ne _ hn]
      exact hdata.resolve_right (fun hboth => hn hboth.1.symm)

theorem of_none (hdata : ∀ n, t.fds.data n = base n) (hlog : t.log = none) : Beside base t :=
  ⟨by simp [hlog], fun n => Or.inl (hdata n)⟩

/-- After a message, the descriptor of the log is open if there is one. -/
theorem syslog (h : Beside base t) (a : LogAnswer) :
    Beside base (t.syslog a) ∧ (∀ k ∈ (t.syslog a).log, (t.syslog a).fds.data k = some .other) ∧
      (t.syslog a).sockfd = t.sockfd ∧ (t.syslog a).file = t.file := by
  have hclosed := h.data_closelog
  unfold Setup.syslog
  split
  · rename_i hsent
    obtain ⟨_, fd, hfd, hopen⟩ := hsent
    refine ⟨h, ?_, rfl, rfl⟩
    intro k hk
    cases Option.some.inj (hfd.symm.trans hk)
    exact ((h.data fd).resolve_left (by rw [h.free fd hfd]; exact hopen)).2
  · simp only
    split
    · have hfree : base t.closelog.fds.lowest = none := by
        rw [← hclosed, Store.data_lowest]
      refine ⟨⟨?_, ?_⟩, ?_, rfl, rfl⟩
      · intro k hk
        cases hk
        exact hfree
      · intro n
        by_cases hn : n = t.closelog.fds.lowest
        · rw [hn]
          exact Or.inr ⟨rfl, Store.data_set_self ..⟩
        · left
          rw [Store.data_set_of_ne _ _ hn]
          exact hclosed n
      · intro k hk
        cases hk
        exact Store.data_set_self ..
    · exact ⟨.of_none hclosed rfl, by simp [Setup.closelog], rfl, rfl⟩

end Beside

/-- The socket has the number that was free first, and `file` has it too. -/
structure Bound (fds : Store Fd) (t : Setup) : Prop where
  sockfd : t.sockfd = fds.lowest
  file : t.file = fds.lowest
  beside : Beside (withListener fds) t

/-- The table that the daemon serves with: it has closed 0, 1 and 2. -/
def servingTable (fds : Store Fd) (deamonize : Bool) (n : ℕ) : Option Fd :=
  if deamonize = true ∧ n < 3 then none else withListener fds n

theorem servingTable_false (fds : Store Fd) : servingTable fds false = withListener fds := by
  funext n
  simp [servingTable]

section Descriptors

variable (fds : Store Fd)

/-- Opening and closing the file leaves the table as it was. -/
theorem data_openFile_close (n : ℕ) :
    ((Setup.start fds).openFile.close (Setup.start fds).openFile.file).fds.data n = fds.data n :=
  Store.data_erase_set _ _ fds.data_lowest n

/-- The socket gets the number that `file` still has. -/
theorem bound_socket :
    Bound fds ((Setup.start fds).openFile.close (Setup.start fds).openFile.file).socket := by
  have hlowest : Store.lowest
      ((Setup.start fds).openFile.close (Setup.start fds).openFile.file).fds = fds.lowest :=
    Store.lowest_congr (data_openFile_close fds)
  refine ⟨hlowest, rfl, .of_none ?_ rfl⟩
  intro n
  change (Store.set _ _ _).data n = _
  rw [hlowest, withListener]
  by_cases hn : n = fds.lowest
  · rw [hn, Store.data_set_self, if_pos rfl]
  · rw [Store.data_set_of_ne _ _ hn, if_neg hn]
    exact data_openFile_close fds n

/-- The three standard descriptors are open exactly if no number below 3 is free. -/
theorem three_le_lowest_iff : 3 ≤ fds.lowest ↔ ∀ n < 3, fds.data n ≠ none := by
  constructor
  · intro hle n hn hnone
    have hlow := fds.lowest_le hnone
    omega
  · intro hopen
    by_contra hlt
    exact hopen _ (by omega) fds.data_lowest

variable {fds} {t : Setup}

theorem Bound.syslog (h : Bound fds t) (a : LogAnswer) : Bound fds (t.syslog a) := by
  obtain ⟨hbeside, _, hsockfd, hfile⟩ := h.beside.syslog a
  exact ⟨hsockfd.trans h.sockfd, hfile.trans h.file, hbeside⟩

/-- Closing both numbers closes the socket, and a second time nothing. -/
theorem Bound.data_giveUp (h : Bound fds t) (n : ℕ) : t.giveUp.fds.data n = fds.data n := by
  have hclosed := ((h.beside.close t.sockfd).close (t.close t.sockfd).file).data_closelog n
  refine hclosed.trans ?_
  change Function.update (Function.update (withListener fds) t.sockfd none) t.file none n = _
  rw [h.sockfd, h.file]
  by_cases hn : n = fds.lowest
  · rw [hn, Function.update_self, fds.data_lowest]
  · rw [Function.update_of_ne hn, Function.update_of_ne hn, withListener, if_neg hn]

/-- Without a socket, `close(file)` finds nothing, or the descriptor of the log. -/
theorem data_noSocket (a : LogAnswer) (n : ℕ) :
    let s := (Setup.start fds).openFile.close (Setup.start fds).openFile.file
    ((s.syslog a).close s.file).closelog.fds.data n = fds.data n := by
  intro s
  have hbeside : Beside fds.data s := .of_none (data_openFile_close fds) rfl
  have hclosed := ((hbeside.syslog a).1.close s.file).data_closelog n
  refine hclosed.trans ?_
  change Function.update fds.data fds.lowest none n = fds.data n
  by_cases hn : n = fds.lowest
  · rw [hn, Function.update_self, fds.data_lowest]
  · rw [Function.update_of_ne hn]

/-- What the daemon leaves open. -/
theorem Bound.closeStandard (h : Bound fds t) :
    Beside (servingTable fds true) (((t.close 0).close 1).close 2) := by
  have hbase : Function.update (Function.update (Function.update (withListener fds) 0 none) 1 none)
      2 none = servingTable fds true := by
    funext n
    by_cases hn : n < 3
    · simp only [servingTable, hn, and_self, if_true]
      obtain rfl | rfl | rfl : n = 0 ∨ n = 1 ∨ n = 2 := by omega
      · simp
      · simp
      · simp
    · simp only [servingTable, hn, and_false, if_false]
      rw [Function.update_of_ne (by omega), Function.update_of_ne (by omega),
        Function.update_of_ne (by omega)]
  rw [← hbase]
  exact ((h.beside.close 0).close 1).close 2

/-- The daemon's part, from the socket on. -/
theorem Bound.deamonize (h : Bound fds t) (a : SetupAnswer) :
    ((t.deamonize a).2 = .exited 1 ∧ ∀ n, (t.deamonize a).1.fds.data n = fds.data n) ∨
      (t.deamonize a).2 = .exited 0 ∨
      ((t.deamonize a).2 = .listening ∧ (t.deamonize a).1.sockfd = fds.lowest ∧
        (t.deamonize a).1.file = fds.lowest ∧
        Beside (servingTable fds true) (t.deamonize a).1) := by
  unfold Setup.deamonize
  split
  · exact Or.inl ⟨rfl, h.data_giveUp⟩
  · split
    · exact Or.inr (Or.inl rfl)
    · split
      · exact Or.inl ⟨rfl, h.data_giveUp⟩
      · split
        · exact Or.inl ⟨rfl, h.data_giveUp⟩
        · exact Or.inr (Or.inr ⟨rfl, h.sockfd, h.file, h.closeStandard⟩)

/-- The socket is still the listening one if the daemon has not closed it. -/
theorem servingTable_lowest (deamonize : Bool) :
    servingTable fds deamonize fds.lowest =
      if deamonize = true ∧ fds.lowest < 3 then none else some .listener := by
  rw [servingTable, withListener, if_pos rfl]

end Descriptors

/-- How the setup has ended: everything is as before, or the loop is reached and the
descriptor of the log is the only one beside those that the server serves with. -/
structure Settled (fds : Store Fd) (deamonize : Bool) (r : Setup × Outcome) : Prop where
  undone : r.2 = .returned ∨ r.2 = .exited 1 → ∀ n, r.1.fds.data n = fds.data n
  sockfd : r.2 = .listening → r.1.sockfd = fds.lowest
  file : r.2 = .listening → r.1.file = fds.lowest
  free : r.2 = .listening → ∀ k ∈ r.1.log, servingTable fds deamonize k = none
  data : r.2 = .listening → ∀ n, r.1.fds.data n =
    if n ∈ r.1.log then some .other else servingTable fds deamonize n

namespace Settled

variable {fds : Store Fd} {deamonize : Bool} {t : Setup}

theorem of_undone {outcome : Outcome} (hout : outcome ≠ .listening)
    (h : outcome = .returned ∨ outcome = .exited 1 → ∀ n, t.fds.data n = fds.data n) :
    Settled fds deamonize (t, outcome) :=
  ⟨h, fun hl => absurd hl hout, fun hl => absurd hl hout, fun hl => absurd hl hout,
    fun hl => absurd hl hout⟩

theorem announced (hsockfd : t.sockfd = fds.lowest) (hfile : t.file = fds.lowest)
    (hbeside : Beside (servingTable fds deamonize) t) (a : LogAnswer) :
    Settled fds deamonize (t.syslog a, .listening) := by
  obtain ⟨hafter, hopen, hsame, hsame'⟩ := hbeside.syslog a
  refine ⟨?_, fun _ => hsame.trans hsockfd, fun _ => hsame'.trans hfile, fun _ => hafter.free, ?_⟩
  · rintro (hout | hout)
    · cases hout
    · cases hout
  · intro _ n
    by_cases hn : n ∈ (t.syslog a).log
    · rw [if_pos hn]
      exact hopen n hn
    · rw [if_neg hn]
      exact (hafter.data n).resolve_right (fun hboth => hn hboth.1)

theorem createTCPServer (fds : Store Fd) (deamonize : Bool) (a : SetupAnswer) :
    Settled fds deamonize ((Setup.start fds).createTCPServer deamonize a) := by
  simp only [Setup.createTCPServer]
  split
  · exact .of_undone (by simp) (fun _ _ => rfl)
  · split
    · exact .of_undone (by simp) (fun _ => data_noSocket a.logFailure)
    · have hbound := bound_socket fds
      generalize hs : ((Setup.start fds).openFile.close
        (Setup.start fds).openFile.file).socket = s at hbound ⊢
      have hlater : Bound fds (if a.setsockopt then s else s.syslog a.logSetsockopt) := by
        split
        · exact hbound
        · exact hbound.syslog _
      generalize (if a.setsockopt then s else s.syslog a.logSetsockopt) = u at hlater ⊢
      split
      · exact .of_undone (by simp) (fun _ => (hlater.syslog a.logFailure).data_giveUp)
      · split
        · exact .of_undone (by simp) (fun _ => (hlater.syslog a.logFailure).data_giveUp)
        · cases deamonize with
          | false =>
            have hbeside := hlater.beside
            rw [← servingTable_false] at hbeside
            exact .announced hlater.sockfd hlater.file hbeside a.logListening
          | true =>
            simp only [if_true]
            generalize hr : u.deamonize a = r
            obtain hout | hout | hout := hr ▸ hlater.deamonize a
            · obtain ⟨t, outcome⟩ := r
              obtain ⟨rfl, hsame⟩ := hout
              exact .of_undone (by simp) (fun _ => hsame)
            · obtain ⟨t, outcome⟩ := r
              cases hout
              exact .of_undone (by simp) (by simp)
            · obtain ⟨t, outcome⟩ := r
              obtain ⟨rfl, hsockfd, hfile, hbeside⟩ := hout
              exact .announced hsockfd hfile hbeside a.logListening

end Settled

/-- Every path that gives up leaves the descriptor table as it was. If the accept loop is
reached, `sockfd` is the lowest number that was free, `file` is the same number, and
that socket is the only new descriptor, beside one for the log at a number that is free
otherwise; a daemon, that is a process whose first argument is `-d`, has also closed 0, 1
and 2. So it still listens if and only if these three were open before. -/
theorem setup_descriptors (argv : List String) (fds : Store Fd) (a : SetupAnswer) :
    let r := (Setup.start fds).createTCPServer (deamonizeFlag argv) a
    (r.2 = .returned ∨ r.2 = .exited 1 → ∀ n, r.1.fds.data n = fds.data n) ∧
      (r.2 = .listening → r.1.sockfd = fds.lowest ∧ r.1.file = fds.lowest ∧
        (∀ k ∈ r.1.log, argv[1]? = some "-d" ∧ k < 3 ∨ withListener fds k = none) ∧
        (∀ n, r.1.fds.data n =
          if n ∈ r.1.log then some .other
          else if argv[1]? = some "-d" ∧ n < 3 then none else withListener fds n) ∧
        (r.1.fds.data r.1.sockfd = some .listener ↔
          (argv[1]? = some "-d" → ∀ n < 3, fds.data n ≠ none))) := by
  intro r
  obtain ⟨hundone, hsockfd, hfile, hfree, hdata⟩ :=
    Settled.createTCPServer fds (deamonizeFlag argv) a
  refine ⟨hundone, fun hlistening => ?_⟩
  have hflag : deamonizeFlag argv = true ↔ argv[1]? = some "-d" := by
    rw [deamonizeFlag_eq, decide_eq_true_eq]
  have htable : ∀ n, servingTable fds (deamonizeFlag argv) n =
      if argv[1]? = some "-d" ∧ n < 3 then none else withListener fds n := by
    intro n
    simp only [servingTable, hflag]
  refine ⟨hsockfd hlistening, hfile hlistening, ?_, ?_, ?_⟩
  · intro k hk
    have hnone := hfree hlistening k hk
    rw [htable] at hnone
    by_cases hclosed : argv[1]? = some "-d" ∧ k < 3
    · exact Or.inl hclosed
    · rw [if_neg hclosed] at hnone
      exact Or.inr hnone
  · intro n
    rw [← htable]
    exact hdata hlistening n
  · have hopen : r.1.fds.data r.1.sockfd =
        if r.1.sockfd ∈ r.1.log then some .other
        else servingTable fds (deamonizeFlag argv) r.1.sockfd := hdata hlistening _
    have hlow : r.1.sockfd = fds.lowest := hsockfd hlistening
    rw [hopen, hlow, ← three_le_lowest_iff]
    by_cases hclosed : deamonizeFlag argv = true ∧ fds.lowest < 3
    · have hnot : ¬ (argv[1]? = some "-d" → 3 ≤ fds.lowest) :=
        fun himp => absurd (himp (hflag.mp hclosed.1)) (by omega)
      refine iff_of_false ?_ hnot
      split
      · simp
      · rw [servingTable_lowest, if_pos hclosed]
        simp
    · have hlistener : servingTable fds (deamonizeFlag argv) fds.lowest = some .listener := by
        rw [servingTable_lowest, if_neg hclosed]
      have hnotin : fds.lowest ∉ r.1.log := by
        intro hmem
        have hnone := hfree hlistening _ hmem
        rw [hlistener] at hnone
        cases hnone
      rw [if_neg hnotin]
      refine iff_of_true hlistener ?_
      intro hd
      by_contra hlt
      exact hclosed ⟨hflag.mpr hd, by omega⟩

end Aesd.Acceptor
