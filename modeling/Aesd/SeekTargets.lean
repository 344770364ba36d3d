import Aesd.SeekTo

/-!
Which targets the seek-to-command accepts. The check compares the offset with the
slot of that number by `>`: it lets the end of a command through, it takes an
unwritten slot for an empty command, and after an eviction it looks at the wrong
command. These are the only targets it misjudges.
-/
namespace Aesd.Driver

/-- A target that does not exist is refused and nothing moves; any other is accepted. -/
structure SeekExact (k : Kernel) (cmds : List (List UInt8)) (fPos : ℤ) (seekto : Seekto) :
    Prop where
  refused_iff : aesdAdjustFileOffset k.dev fPos false seekto = ⟨fPos, -EINVAL⟩ ↔
    cmds.length ≤ seekto.writeCmd ∨
      (cmds.getD seekto.writeCmd []).length ≤ seekto.writeCmdOffset
  accepted : ¬ (cmds.length ≤ seekto.writeCmd ∨
      (cmds.getD seekto.writeCmd []).length ≤ seekto.writeCmdOffset) →
    (aesdAdjustFileOffset k.dev fPos false seekto).retval = 0

/-- An unwritten slot at offset 0, an offset that is past the command but not past
the slot with its number, or one inside the command but past that slot. -/
def Misjudged (k : Kernel) (cmds : List (List UInt8)) (seekto : Seekto) : Prop :=
  (cmds.length ≤ seekto.writeCmd ∧ seekto.writeCmd < 10 ∧ seekto.writeCmdOffset = 0) ∨
    (seekto.writeCmd < cmds.length ∧
      (cmds.getD seekto.writeCmd []).length ≤ seekto.writeCmdOffset ∧
      seekto.writeCmdOffset ≤ (k.dev.circularBuffer.slot seekto.writeCmd).size) ∨
    (seekto.writeCmd < cmds.length ∧
      seekto.writeCmdOffset < (cmds.getD seekto.writeCmd []).length ∧
      (k.dev.circularBuffer.slot seekto.writeCmd).size < seekto.writeCmdOffset)

/-- The check of the source, by the slot with the number of the command. -/
theorem adjust_refused_iff (dev : Dev) (fPos : ℤ) (seekto : Seekto) :
    aesdAdjustFileOffset dev fPos false seekto = ⟨fPos, -EINVAL⟩ ↔
      10 ≤ seekto.writeCmd ∨
        (dev.circularBuffer.slot seekto.writeCmd).size < seekto.writeCmdOffset := by
  rw [aesdAdjustFileOffset, if_neg Bool.false_ne_true, maxWriteOperationsSupported]
  split
  · rename_i hbad
    exact iff_of_true rfl hbad
  · rename_i hgood
    refine iff_of_false ?_ hgood
    intro heq
    have hret : (0 : ℤ) = -EINVAL := congrArg SeekResult.retval heq
    exact absurd hret (by decide)

theorem adjust_accepted (dev : Dev) (fPos : ℤ) (seekto : Seekto)
    (h : ¬ (10 ≤ seekto.writeCmd ∨
      (dev.circularBuffer.slot seekto.writeCmd).size < seekto.writeCmdOffset)) :
    (aesdAdjustFileOffset dev fPos false seekto).retval = 0 := by
  rw [aesdAdjustFileOffset, if_neg Bool.false_ne_true, if_neg h]

/-- In every state reached by writes, a target is judged rightly if and only if it is
none of the three kinds above. -/
theorem seek_exact_iff (calls : List WriteCall) (k : Kernel)
    (hrun : runWrites aesdInitModule calls = some k) :
    ∃ cmds, k.LiveCommands cmds ∧
      ∀ (fPos : ℤ) (seekto : Seekto),
        SeekExact k cmds fPos seekto ↔ ¬ Misjudged k cmds seekto := by
  obtain ⟨es, all, hholds⟩ := exists_holds calls k hrun
  refine ⟨all.rtake 10, hholds.shows.liveCommands, ?_⟩
  intro fPos seekto
  have hten : (all.rtake 10).length ≤ 10 := by
    rw [List.rtake, List.length_drop]
    omega
  have hdead := hholds.slot_unwritten seekto.writeCmd
  have hrefused := adjust_refused_iff k.dev fPos seekto
  have haccepted := adjust_accepted k.dev fPos seekto
  unfold Misjudged
  constructor
  · intro hexact
    have hiff := hrefused.symm.trans hexact.refused_iff
    omega
  · intro hfine
    constructor
    · rw [hrefused]
      omega
    · intro hvalid
      apply haccepted
      omega

/-- The last byte of the newer of two commands. -/
theorem seek_exact_two_commands :
    ∃ k, runWrites aesdInitModule
        [.granted ⟨[97, 98, 10], by decide⟩ 0, .granted ⟨[99, 10], by decide⟩ 0] = some k ∧
      SeekExact k [[97, 98, 10], [99, 10]] 0 ⟨1, 1, by decide, by decide⟩ := by
  have hvals : (runWrites aesdInitModule
      [.granted ⟨[97, 98, 10], by decide⟩ 0, .granted ⟨[99, 10], by decide⟩ 0]).map
        (fun k => (k.dev.circularBuffer.live.map k.bytesOf, (k.dev.circularBuffer.slot 1).size)) =
      some ([some [97, 98, 10], some [99, 10]], 2) := by decide
  obtain ⟨k, hk, hvals⟩ := Option.map_eq_some_iff.mp hvals
  simp only [Prod.mk.injEq] at hvals
  obtain ⟨cmds, hcmds, hseek⟩ := seek_exact_iff _ k hk
  cases liveCommands_unique k cmds [[97, 98, 10], [99, 10]] hcmds hvals.1
  refine ⟨k, hk, (hseek 0 _).mpr ?_⟩
  unfold Misjudged
  rw [hvals.2]
  decide

/-- In a device of one command of three bytes the seek to its end, offset 3, and the
seek to the second command, which does not exist, both return 0. -/
theorem seek_past_end_accepted :
    ∃ k, runWrites aesdInitModule [.granted ⟨[97, 98, 10], by decide⟩ 0] = some k ∧
      k.LiveCommands [[97, 98, 10]] ∧
      aesdAdjustFileOffset k.dev 0 false ⟨0, 3, by decide, by decide⟩ = ⟨3, 0⟩ ∧
      aesdAdjustFileOffset k.dev 0 false ⟨1, 0, by decide, by decide⟩ = ⟨3, 0⟩ ∧
      ¬ SeekExact k [[97, 98, 10]] 0 ⟨0, 3, by decide, by decide⟩ ∧
      ¬ SeekExact k [[97, 98, 10]] 0 ⟨1, 0, by decide, by decide⟩ := by
  have hvals : (runWrites aesdInitModule [.granted ⟨[97, 98, 10], by decide⟩ 0]).map
      (fun k => (k.dev.circularBuffer.live.map k.bytesOf,
        aesdAdjustFileOffset k.dev 0 false ⟨0, 3, by decide, by decide⟩,
        aesdAdjustFileOffset k.dev 0 false ⟨1, 0, by decide, by decide⟩)) =
      some ([some [97, 98, 10]], ⟨3, 0⟩, ⟨3, 0⟩) := by decide
  obtain ⟨k, hk, hvals⟩ := Option.map_eq_some_iff.mp hvals
  simp only [Prod.mk.injEq] at hvals
  obtain ⟨hlive, hend, hdead⟩ := hvals
  refine ⟨k, hk, hlive, hend, hdead, ?_, ?_⟩
  · intro hexact
    have hrefused := hexact.refused_iff.mpr (by decide)
    rw [hend] at hrefused
    exact absurd hrefused (by decide)
  · intro hexact
    have hrefused := hexact.refused_iff.mpr (by decide)
    rw [hdead] at hrefused
    exact absurd hrefused (by decide)

end Aesd.Driver
