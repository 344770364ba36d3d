import Aesd.HandlerPhases
import Aesd.OwnershipLedger

/-!
Who owns the number in the global `file`. The server follows the ledger of one open
file at a time as long as a thread opens the device only while no other thread holds
an open file, and none of the paths that lose or repeat a `close` is taken, nor the
one that closes `sockfd`.
-/
namespace Aesd.Server

open Driver

/-- The steps that keep the discipline: a thread opens the device only while no
file is open, and the open succeeds; no data arrives on a connection after a
`recv` that returned 0 or an error; the allocation of `buffer` succeeds, and that of
`writeBuf` does on the path that has kept its file open. -/
@[mk_iff]
structure Exclusive (s : State) (a : Act) : Prop where
  alone : (s.handlers a.task).call = some .openDevice → s.NoDevice
  opens : (s.handlers a.task).call = some .openDevice → a.answer.fd ≠ none
  quiet : (s.handlers a.task).pc = .recv → (s.inbox a.task).head?.any Recv.isData = true →
    (s.handlers a.task).receivedError = false ∧ (s.handlers a.task).connectionClosed = false
  buffer : (s.handlers a.task).pc = .mallocBuffer → a.answer.granted = true
  allocated : (s.handlers a.task).pc = .mallocWriteBuf →
    a.answer.granted = true ∨ (s.handlers a.task).needToReopen = true

instance (s : State) (a : Act) : Decidable (Exclusive s a) :=
  decidable_of_iff _ (exclusive_iff s a).symm

theorem Exclusive.regular {s s' : State} {a : Act} (h : Exclusive s a) (call : Call)
    (result : Result) (hcall : (s.handlers a.task).call = some call)
    (hexec : exec s a.task a.answer call = some (s', result)) :
    (s.handlers a.task).Regular result := by
  unfold Handler.Regular
  split
  · rename_i chunk hpc
    simp only [Handler.call, hpc, Option.some.injEq] at hcall
    subst hcall
    simp only [exec] at hexec
    split at hexec
    · cases hexec
    · rename_i r rest hinbox
      cases hexec
      exact h.quiet hpc (by simp [hinbox, Recv.isData])
  · trivial
  · rename_i hpc hresult
    simp only [Handler.call, hpc, Option.some.injEq] at hcall
    subst hcall
    simp only [exec, Option.some.injEq, Prod.mk.injEq] at hexec
    exact absurd (by rw [← hexec.2, if_pos (h.buffer hpc)]) hresult
  · trivial
  · rename_i hpc hresult
    simp only [Handler.call, hpc, Option.some.injEq] at hcall
    subst hcall
    simp only [exec, Option.some.injEq, Prod.mk.injEq] at hexec
    rcases h.allocated hpc with hgranted | hreopen
    · exact absurd (by rw [← hexec.2, if_pos hgranted]) hresult
    · exact hreopen
  · trivial

/-- At most one file is open, its number is in `file`, and its owner is the one
thread between an open and a close. -/
structure OneFile (s : State) : Prop where
  sane : ∀ i, (s.handlers i).Sane
  single : ∀ fd f, s.fds.data fd = some (.device f) → s.file = some fd
  holder : ∀ i, (s.handlers i).Holding ↔ ∃ fd f, s.device = some (fd, f) ∧ f.owner = i
  ledger : Ledger s.log (s.device.map (fun d => (d.2.owner, d.2.serial))) s.opens

namespace OneFile

theorem init (sockfd : ℕ) (inbox : ℕ → List Recv) : OneFile (initAt sockfd inbox) := by
  have hnone : (initAt sockfd inbox).device = none := by
    simp [State.device, State.openFile, initAt, Fd.openFile]
  refine ⟨fun _ => trivial, ?_, ?_, ?_⟩
  · intro fd f hdata
    by_cases hfd : fd = sockfd
    · rw [hfd]
      rfl
    · simp only [initAt, Store.data_set_of_ne _ _ hfd] at hdata
      cases hdata
  · intro i
    apply iff_of_false
    · intro h
      cases h
    · intro h
      obtain ⟨fd, f, hdevice, _⟩ := h
      rw [hnone] at hdevice
      cases hdevice
  · rw [hnone]
    exact Ledger.empty

/-- The only thread that holds a file is the owner of the one that is open. -/
theorem holds_eq {s : State} (h : OneFile s) {i fd : ℕ} {f : OpenFile}
    (hdevice : s.device = some (fd, f)) : (s.handlers i).Holding ↔ i = f.owner := by
  rw [h.holder]
  constructor
  · intro hi
    obtain ⟨fd', f', hdevice', rfl⟩ := hi
    cases hdevice.symm.trans hdevice'
    rfl
  · intro hi
    exact ⟨fd, f, hdevice, hi.symm⟩

section Step

variable {s t : State} {i : ℕ} {answer : Answer} {result : Result} (h : OneFile s)
  (hhandlers : t.handlers = Function.update s.handlers i ((s.handlers i).resume result))

include h hhandlers

theorem sane_update (hregular : (s.handlers i).Regular result) (j : ℕ) :
    (t.handlers j).Sane := by
  rw [hhandlers]
  by_cases hj : j = i
  · subst hj
    rw [Function.update_self]
    exact Handler.sane_resume _ result (h.sane j) hregular
  · rw [Function.update_of_ne hj]
    exact h.sane j

theorem other (hregular : (s.handlers i).Regular result)
    (hsame : ((s.handlers i).resume result).Holding ↔ (s.handlers i).Holding)
    (hfds : t.fds = s.fds) (hfile : t.file = s.file) (hlog : t.log = s.log)
    (hopens : t.opens = s.opens) : OneFile t where
  sane := h.sane_update hhandlers hregular
  single fd f hdata := by
    rw [hfile]
    exact h.single fd f (hfds ▸ hdata)
  holder j := by
    rw [State.device_congr hfile hfds, ← h.holder j, hhandlers]
    by_cases hj : j = i
    · subst hj
      rw [Function.update_self]
      exact hsame
    · rw [Function.update_of_ne hj]
  ledger := by
    rw [State.device_congr hfile hfds, hlog, hopens]
    exact h.ledger

theorem opened (hregular : (s.handlers i).Regular result)
    (hholding : ((s.handlers i).resume result).Holding) (hnone : s.NoDevice) (fd : ℕ)
    (hfds : t.fds = s.fds.set fd (.device ⟨i, s.opens, 0⟩)) (hfile : t.file = some fd)
    (hlog : t.log = s.log ++ [⟨i, .openDevice, some s.opens⟩])
    (hopens : t.opens = s.opens + 1) : OneFile t := by
  have hbefore : s.device = none := State.device_eq_none hnone
  have hafter : t.device = some (fd, ⟨i, s.opens, 0⟩) := by
    rw [State.device_eq_some_iff, hfile, hfds]
    exact ⟨rfl, Store.data_set_self ..⟩
  have hledger := h.ledger
  rw [hbefore] at hledger
  refine ⟨h.sane_update hhandlers hregular, ?_, ?_, ?_⟩
  · intro fd' f hdata
    by_cases hfd : fd' = fd
    · rw [hfd]
      exact hfile
    · rw [hfds, Store.data_set_of_ne _ _ hfd, ← s.openFile_eq_some_iff, hnone] at hdata
      cases hdata
  · intro j
    rw [hhandlers, hafter]
    by_cases hj : j = i
    · subst hj
      rw [Function.update_self]
      exact iff_of_true hholding ⟨fd, _, rfl, rfl⟩
    · rw [Function.update_of_ne hj]
      apply iff_of_false
      · intro hother
        obtain ⟨fd', f', hdevice, _⟩ := (h.holder j).mp hother
        rw [hbefore] at hdevice
        cases hdevice
      · intro hother
        obtain ⟨fd', f', hdevice, howner⟩ := hother
        cases hdevice
        exact hj howner.symm
  · rw [hafter, hlog, hopens]
    exact hledger.openFile i

variable {fd : ℕ} {f : OpenFile} (hdevice : s.device = some (fd, f))
  (hholds : (s.handlers i).Holding)

include hdevice hholds

theorem used (hregular : (s.handlers i).Regular result)
    (hholding : ((s.handlers i).resume result).Holding) (op : DeviceOp)
    (hopen : op ≠ .openDevice) (hclose : op ≠ .close) (pos : ℤ)
    (hfds : t.fds = s.fds.set fd (.device { f with fPos := pos })) (hfile : t.file = s.file)
    (hlog : t.log = s.log ++ [⟨i, op, some f.serial⟩]) (hopens : t.opens = s.opens) :
    OneFile t := by
  obtain ⟨hfile', hdata'⟩ := (s.device_eq_some_iff fd f).mp hdevice
  have howner := (h.holds_eq hdevice).mp hholds
  have hafter : t.device = some (fd, { f with fPos := pos }) := by
    rw [State.device_eq_some_iff, hfile, hfds]
    exact ⟨hfile', Store.data_set_self ..⟩
  have hledger := h.ledger
  rw [hdevice] at hledger
  refine ⟨h.sane_update hhandlers hregular, ?_, ?_, ?_⟩
  · intro fd' f' hdata
    by_cases hfd : fd' = fd
    · rw [hfd, hfile]
      exact hfile'
    · rw [hfds, Store.data_set_of_ne _ _ hfd] at hdata
      rw [hfile]
      exact h.single fd' f' hdata
  · intro j
    rw [hhandlers, hafter]
    by_cases hj : j = i
    · subst hj
      rw [Function.update_self]
      exact iff_of_true hholding ⟨fd, _, rfl, howner.symm⟩
    · rw [Function.update_of_ne hj, h.holds_eq hdevice]
      constructor
      · intro hown
        exact ⟨fd, _, rfl, hown.symm⟩
      · intro hown
        obtain ⟨fd', f', heq, hown⟩ := hown
        cases heq
        exact hown.symm
  · rw [hafter, hlog, hopens, howner]
    exact hledger.use op hopen hclose

theorem closed (hregular : (s.handlers i).Regular result)
    (hreleased : ¬ ((s.handlers i).resume result).Holding)
    (hfds : t.fds = s.fds.erase fd) (hlog : t.log = s.log ++ [⟨i, .close, some f.serial⟩])
    (hopens : t.opens = s.opens) : OneFile t := by
  obtain ⟨hfile', hdata'⟩ := (s.device_eq_some_iff fd f).mp hdevice
  have howner := (h.holds_eq hdevice).mp hholds
  have hnone : t.NoDevice := by
    intro fd'
    by_cases hfd : fd' = fd
    · rw [State.openFile, hfds, hfd, Store.data_erase_self, Option.bind_none]
    · rw [State.openFile, hfds, Store.data_erase_of_ne _ hfd]
      apply Option.eq_none_iff_forall_ne_some.mpr
      intro f' hf'
      have hsame := h.single fd' f' ((s.openFile_eq_some_iff fd' f').mp hf')
      rw [hfile'] at hsame
      exact hfd (Option.some.inj hsame).symm
  have hafter : t.device = none := State.device_eq_none hnone
  have hledger := h.ledger
  rw [hdevice] at hledger
  refine ⟨h.sane_update hhandlers hregular, ?_, ?_, ?_⟩
  · intro fd' f' hdata
    rw [← t.openFile_eq_some_iff, hnone] at hdata
    cases hdata
  · intro j
    rw [hhandlers, hafter]
    apply iff_of_false
    · by_cases hj : j = i
      · subst hj
        rw [Function.update_self]
        exact hreleased
      · rw [Function.update_of_ne hj, h.holds_eq hdevice, ← howner]
        exact hj
    · intro hother
      obtain ⟨fd', f', hdevice', _⟩ := hother
      cases hdevice'
  · rw [hafter, hlog, hopens, howner]
    exact hledger.close

end Step

theorem step {s t : State} {a : Act} (h : OneFile s) (hok : Exclusive s a)
    (hstep : step s a = some t) : OneFile t := by
  obtain ⟨call, s', result, hcall, hexec, rfl⟩ := step_eq_some_iff.mp hstep
  have hregular := hok.regular call result hcall hexec
  by_cases hopen : call = .openDevice
  · subst hopen
    obtain ⟨pick, hpick⟩ := Option.ne_none_iff_exists'.mp (hok.opens hcall)
    obtain ⟨hfds, hfile, hlog, hopens⟩ := exec_open pick hpick hexec
    exact h.opened rfl hregular (Handler.holding_open _ result hcall).2 (hok.alone hcall) _
      hfds hfile hlog hopens
  by_cases hclose : call = .close
  · subst hclose
    obtain ⟨hholds, hreleased⟩ := Handler.holding_close _ result (h.sane _) hcall
    obtain ⟨fd, f, hdevice, _⟩ := (h.holder _).mp hholds
    obtain ⟨hfds, hlog, hopens⟩ := exec_closed hdevice hexec
    exact h.closed rfl hdevice hholds hregular hreleased hfds hlog hopens
  have hsockfd : call ≠ .closeSockfd := by
    rintro rfl
    exact (h.sane a.task).not_closeSockfd hcall
  cases hop : call.deviceOp with
  | none =>
    obtain ⟨hfds, hfile, hlog, hopens⟩ := exec_other call hopen hclose hsockfd hop hexec
    exact h.other rfl hregular (Handler.holding_other _ result call (h.sane _) hregular hcall
      hopen hclose hop) hfds hfile hlog hopens
  | some op =>
    obtain ⟨hholds, hholding⟩ := Handler.holding_use _ result call op (h.sane _) hcall hop
    obtain ⟨fd, f, hdevice, _⟩ := (h.holder _).mp hholds
    obtain ⟨pos, hfds, hfile, hlog, hopens⟩ := exec_use call op hop hdevice hexec
    obtain ⟨hop1, hop2⟩ := Call.deviceOp_ne call op hop
    exact h.used rfl hdevice hholds hregular hholding op hop1 hop2 pos hfds hfile hlog hopens

theorem owned {s : State} (h : OneFile s) : DescriptorsOwned s where
  own_use := h.ledger.own_use
  closed_once i hreturned n hopen := by
    rcases h.ledger.closed i n hopen with hcurrent | hcount
    · obtain ⟨d, hdevice, hd⟩ := Option.map_eq_some_iff.mp hcurrent
      have hholding : (s.handlers i).Holding :=
        (h.holder i).mpr ⟨d.1, d.2, hdevice, congrArg Prod.fst hd⟩
      simp [Handler.Holding, hreturned] at hholding
    · exact hcount

end OneFile

end Aesd.Server
