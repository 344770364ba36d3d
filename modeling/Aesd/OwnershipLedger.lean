import Aesd.ServerState
import Aesd.Runs

/-!
Who owns a descriptor of the device, read off the log of the calls. The ledger is the
discipline in the abstract: one open file at a time, used and closed by the thread
that opened it.
-/
namespace Aesd.Server

open Driver

/-- Thread `i` has opened file `n` and has not closed it. -/
def Owns (log : List Event) (i n : ℕ) : Prop :=
  ⟨i, .openDevice, some n⟩ ∈ log ∧ ⟨i, .close, some n⟩ ∉ log

/-- Every call that is not an open is made on a file its thread owns. -/
def OwnUse (log : List Event) : Prop :=
  ∀ before e after, log = before ++ e :: after → e.op ≠ .openDevice →
    ∃ n, e.serial = some n ∧ Owns before e.task n

/-- The property at stake: calls go to owned files, and a thread that has
returned has closed each file it opened exactly once. -/
structure DescriptorsOwned (s : State) : Prop where
  own_use : OwnUse s.log
  closed_once : ∀ i, (s.handlers i).pc = .returned → ∀ n, ⟨i, .openDevice, some n⟩ ∈ s.log →
    s.log.count ⟨i, .close, some n⟩ = 1

/-- The log of a process with at most one open file: `current` is its owner and
its number. -/
structure Ledger (log : List Event) (current : Option (ℕ × ℕ)) (opens : ℕ) : Prop where
  own_use : OwnUse log
  owned : ∀ i n, current = some (i, n) → Owns log i n
  closed : ∀ i n, ⟨i, .openDevice, some n⟩ ∈ log →
    current = some (i, n) ∨ log.count ⟨i, .close, some n⟩ = 1
  serial_lt : ∀ e ∈ log, ∀ n, e.serial = some n → n < opens

theorem OwnUse.concat {log : List Event} (h : OwnUse log) (e : Event)
    (he : e.op ≠ .openDevice → ∃ n, e.serial = some n ∧ Owns log e.task n) :
    OwnUse (log ++ [e]) := by
  intro before e' after hlog hop
  rcases Runs.concat_split hlog with ⟨rfl, rfl⟩ | ⟨after, hlog⟩
  · exact he hop
  · exact h before e' after hlog hop

namespace Ledger

variable {log : List Event} {opens : ℕ}

theorem empty : Ledger [] none 0 where
  own_use := by
    intro before e after hlog
    simp at hlog
  owned := by simp
  closed := by simp
  serial_lt := by simp

theorem openFile (h : Ledger log none opens) (i : ℕ) :
    Ledger (log ++ [⟨i, .openDevice, some opens⟩]) (some (i, opens)) (opens + 1) where
  own_use := h.own_use.concat _ (by simp)
  owned := by
    intro j n hcur
    cases hcur
    refine ⟨by simp, ?_⟩
    intro hclose
    have hold := h.serial_lt _ (by simpa using hclose) opens rfl
    omega
  closed := by
    intro j n hopen
    rcases List.mem_append.mp hopen with hold | hnew
    · right
      rcases h.closed j n hold with hcur | hcount
      · cases hcur
      · simpa [List.count_append] using hcount
    · left
      simp only [List.mem_singleton, Event.mk.injEq, Option.some.injEq, true_and] at hnew
      rw [hnew.1, hnew.2]
  serial_lt := by
    intro e he n hn
    rcases List.mem_append.mp he with hold | hnew
    · exact Nat.lt_succ_of_lt (h.serial_lt e hold n hn)
    · cases List.mem_singleton.mp hnew
      cases hn
      exact Nat.lt_succ_self _

theorem use {i n : ℕ} (h : Ledger log (some (i, n)) opens) (op : DeviceOp)
    (hopen : op ≠ .openDevice) (hclose : op ≠ .close) :
    Ledger (log ++ [⟨i, op, some n⟩]) (some (i, n)) opens where
  own_use := h.own_use.concat _ (fun _ => ⟨n, rfl, h.owned i n rfl⟩)
  owned := by
    intro j m hcur
    cases hcur
    obtain ⟨hin, hout⟩ := h.owned i n rfl
    refine ⟨by simp [hin], ?_⟩
    simp [hout, Ne.symm hclose]
  closed := by
    intro j m hin
    have hold : ⟨j, .openDevice, some m⟩ ∈ log := by
      simpa [Ne.symm hopen] using hin
    rcases h.closed j m hold with hcur | hcount
    · exact Or.inl hcur
    · right
      rw [List.count_append, hcount, List.count_singleton]
      simp [hclose]
  serial_lt := by
    intro e he m hm
    rcases List.mem_append.mp he with hold | hnew
    · exact h.serial_lt e hold m hm
    · cases List.mem_singleton.mp hnew
      cases hm
      exact h.serial_lt _ (h.owned i n rfl).1 n rfl

theorem close {i n : ℕ} (h : Ledger log (some (i, n)) opens) :
    Ledger (log ++ [⟨i, .close, some n⟩]) none opens where
  own_use := h.own_use.concat _ (fun _ => ⟨n, rfl, h.owned i n rfl⟩)
  owned := by simp
  closed := by
    intro j m hin
    right
    have hold : ⟨j, .openDevice, some m⟩ ∈ log := by simpa using hin
    rcases h.closed j m hold with hcur | hcount
    · cases hcur
      rw [List.count_append, List.count_eq_zero.mpr (h.owned i n rfl).2]
      simp
    · have hne : (⟨i, .close, some n⟩ : Event) ≠ ⟨j, .close, some m⟩ := by
        intro heq
        cases heq
        rw [List.count_eq_zero.mpr (h.owned i n rfl).2] at hcount
        cases hcount
      rw [List.count_append, hcount, List.count_singleton]
      simp [hne]
  serial_lt := by
    intro e he m hm
    rcases List.mem_append.mp he with hold | hnew
    · exact h.serial_lt e hold m hm
    · cases List.mem_singleton.mp hnew
      cases hm
      exact h.serial_lt _ (h.owned i n rfl).1 n rfl

end Ledger

end Aesd.Server
