import Aesd.HeldSlots

/-!
What concurrent reads return. Between the lookup and the copy of a read a writer may replace
the entry in the slot. The copy is that of the looked-up command exactly as long as no
completed command is put into a slot that a reader holds.
-/
namespace Aesd.ConcurrentReads

open Driver Segments

theorem Inv.step {s v : State} {a : Act} (h : Inv s) (hok : Undisturbed s a)
    (hstep : step s a = some v) : Inv v := by
  obtain ⟨es, cmds, hholds, hheld⟩ := h.held
  rcases step_cases hstep with ⟨i, call, r, rfl, hidle, hw, rfl⟩ | ⟨i, count, rfl, hidle, rfl⟩ |
    ⟨i, count, idx, o, rfl, hidle, hfind, rfl⟩ | ⟨i, uncopied, rd, r, rfl, hrd, hcopy, rfl⟩
  · obtain ⟨es', cmds', hholds', hpinned⟩ := write_pinned hholds _ r hw
    constructor
    · refine ⟨es', cmds', hholds', ?_⟩
      intro j rd hrd
      obtain ⟨c, before, hpin, hrest⟩ := hheld j rd hrd
      exact ⟨c, before, hpinned rd.idx c hpin (fun hfull hcloses => hok hfull hcloses j rd hrd),
        hrest⟩
    · intro j
      by_cases hji : j = i
      · subst hji
        simp only [Function.update_self]
        exact write_pos_range _ r hw (h.pos_range j)
      · simp only [Function.update_of_ne hji]
        exact h.pos_range j
  · exact h
  · constructor
    · refine ⟨es, cmds, hholds, ?_⟩
      intro j rd hrd
      by_cases hji : j = i
      · subst hji
        simp only [Function.update_self, Option.some.injEq] at hrd
        subst hrd
        have hpos := h.pos_range j
        rw [sizeT_of_range _ hpos.1 hpos.2] at hfind
        obtain ⟨n, c, _, _, ho, hpin, hsum, hlt⟩ :=
          lookup_pins hholds _ idx o hok hfind
        refine ⟨c, _, hpin, ho, ?_, hlt⟩
        simp only [hsum]
        omega
      · simp only [Function.update_of_ne hji] at hrd
        exact hheld j rd hrd
    · exact h.pos_range
  · constructor
    · refine ⟨es, cmds, hholds, ?_⟩
      intro j rd' hrd'
      by_cases hji : j = i
      · subst hji
        simp at hrd'
      · simp only [Function.update_of_ne hji] at hrd'
        exact hheld j rd' hrd'
    · intro j
      by_cases hji : j = i
      · subst hji
        simp only [Function.update_self]
        exact (hheld j rd hrd).copied hholds uncopied r hcopy
      · simp only [Function.update_of_ne hji]
        exact h.pos_range j

theorem reading_step {s v : State} {a : Act} {i : ℕ} (htask : a.task ≠ i)
    (hstep : step s a = some v) : v.reading i = s.reading i := by
  rcases step_cases hstep with ⟨j, call, r, rfl, _, _, rfl⟩ | ⟨j, count, rfl, _, rfl⟩ |
    ⟨j, count, idx, o, rfl, _, _, rfl⟩ | ⟨j, uncopied, rd, r, rfl, _, _, rfl⟩
  · rfl
  · rfl
  · exact Function.update_of_ne (Ne.symm htask) _ _
  · exact Function.update_of_ne (Ne.symm htask) _ _

/-- The looked-up command of a waiting reader stays in its slot. -/
theorem pinned_step {s v : State} {a : Act} {i : ℕ} {rd : Reading} {c : List UInt8}
    (hrd : s.reading i = some rd)
    (hpin : ∃ es cmds, Holds s.kernel es cmds ∧ Pinned cmds rd.idx c)
    (hok : Undisturbed s a) (hstep : step s a = some v) :
    ∃ es cmds, Holds v.kernel es cmds ∧ Pinned cmds rd.idx c := by
  rcases step_cases hstep with ⟨j, call, r, rfl, _, hw, rfl⟩ | ⟨j, count, rfl, _, rfl⟩ |
    ⟨j, count, idx, o, rfl, _, _, rfl⟩ | ⟨j, uncopied, rd', r, rfl, _, _, rfl⟩
  · obtain ⟨es, cmds, hholds, hpin⟩ := hpin
    obtain ⟨es', cmds', hholds', hpinned⟩ := write_pinned hholds _ r hw
    exact ⟨es', cmds', hholds', hpinned rd.idx c hpin
      (fun hfull hcloses => hok hfull hcloses i rd hrd)⟩
  · exact hpin
  · exact hpin
  · exact hpin

theorem inv_of_run (acts : List Act) (s : State)
    (hmeets : Runs.Meets step Undisturbed init acts)
    (hrun : Runs.run step init acts = some s) : Inv s :=
  Runs.run_invariant Inv Undisturbed inv_init (fun _ _ _ h hok hstep => h.step hok hstep)
    acts hmeets hrun

section Waiting

variable {s t : State} {i : ℕ} {since : List Act} (hothers : ∀ a ∈ since, a.task ≠ i)
  (hrun : Runs.run step s since = some t)

include hothers hrun

theorem reading_of_run : t.reading i = s.reading i := by
  refine Runs.run_invariant (fun u => u.reading i = s.reading i) (fun _ a => a.task ≠ i) rfl
    ?_ since ?_ hrun
  · intro u a v hu htask hstep
    exact (reading_step htask hstep).trans hu
  · intro done a rest u hsince _
    exact hothers a (by simp [hsince])

theorem pinned_of_run {rd : Reading} {c : List UInt8}
    (hmeets : Runs.Meets step Undisturbed s since) (hrd : s.reading i = some rd)
    (hpin : ∃ es cmds, Holds s.kernel es cmds ∧ Pinned cmds rd.idx c) :
    ∃ es cmds, Holds t.kernel es cmds ∧ Pinned cmds rd.idx c := by
  refine (Runs.run_invariant (fun u => u.reading i = some rd ∧
    ∃ es cmds, Holds u.kernel es cmds ∧ Pinned cmds rd.idx c)
    (fun u a => Undisturbed u a ∧ a.task ≠ i) ⟨hrd, hpin⟩ ?_ since ?_ hrun).2
  · intro u a v hu hok hstep
    exact ⟨(reading_step hok.2 hstep).trans hu.1, pinned_step hu.1 hu.2 hok.1 hstep⟩
  · intro done a rest u hsince hu
    exact ⟨hmeets done a rest u hsince hu, hothers a (by simp [hsince])⟩

end Waiting

theorem contentRead_of_locate (cmds : List (List UInt8)) (p count i o : ℕ) (c : List UInt8)
    (hloc : locate (cmds.map List.length) p = some (i, o)) (hc : cmds[i]? = some c) :
    contentRead cmds p count = (c.drop o).take count := by
  simp [contentRead, hloc, hc]

/-- A run in which no held slot is refilled reads consistently. -/
theorem reads_consistent_of_undisturbed (acts : List Act)
    (hmeets : Runs.Meets step Undisturbed init acts) : ReadsConsistent acts := by
  intro done i count since s rd hacts hothers hrun hrd
  subst hacts
  rw [List.append_cons] at hmeets hrun
  obtain ⟨t, ht, hsince⟩ := Runs.run_split _ _ hrun
  obtain ⟨u, hu, hlookup⟩ := (Runs.run_concat_eq_some done _).mp ht
  obtain ⟨es, cmds, hholds, _⟩ := (inv_of_run done u hmeets.init.init hu).held
  have hpos := (inv_of_run done u hmeets.init.init hu).pos_range i
  have hok : Undisturbed u (.lookup i count) := hmeets.init.last hu
  rcases step_cases hlookup with ⟨j, call, r, hact, _⟩ | ⟨j, n, hact, hidle, rfl⟩ |
    ⟨j, n, idx, o, hact, hidle, hfind, rfl⟩ | ⟨j, uncopied, rd', r, hact, _⟩
  · cases hact
  · cases hact
    rw [reading_of_run hothers hsince, hidle] at hrd
    cases hrd
  · cases hact
    rw [sizeT_of_range _ hpos.1 hpos.2] at hfind
    obtain ⟨n, c, hloc, hc, ho, hpin, _, hlt⟩ := lookup_pins hholds _ idx o hok hfind
    have hrd' := reading_of_run hothers hsince
    simp only [hrd, Function.update_self, Option.some.injEq] at hrd'
    subst hrd'
    obtain ⟨es', cmds', hholds', hpin'⟩ := pinned_of_run hothers hsince (hmeets.tail ht)
      (Function.update_self _ _ _) ⟨es, cmds, hholds, hpin⟩
    refine ⟨[], since, _, cmds.rtake 10, rfl, ht, hholds.shows.liveCommands, ?_⟩
    intro uncopied
    rw [contentRead_of_locate _ _ _ n o c hloc hc]
    obtain ⟨r, hr, hdata, _, hfull⟩ := copy_pinned hholds' _ c hpin' ho (by omega) uncopied
    exact ⟨r, hr, hdata, fun hcopy => ⟨(hfull hcopy).1, (hfull hcopy).2.1⟩⟩
  · cases hact

/-- The write of a command of one byte and a newline. -/
def Act.line (i : ℕ) (b : UInt8) : Act := .write i (.granted ⟨[b, newline], by simp⟩ 0)

/-- One reader waits while a second command is completed next to the one it holds. -/
theorem reads_consistent_sample :
    ∃ s rd, Runs.run step init [.line 0 97, .lookup 1 9, .line 0 98] = some s ∧
      s.reading 1 = some rd ∧ ReadsConsistent [.line 0 97, .lookup 1 9, .line 0 98] := by
  have hvals : (Runs.run step init [.line 0 97, .lookup 1 9, .line 0 98]).map
      (fun s => s.reading 1) = some (some ⟨0, 9, 0, 0⟩) := by decide
  obtain ⟨s, hs, hrd⟩ := Option.map_eq_some_iff.mp hvals
  have hfirst : Runs.Meets step Undisturbed init [.line 0 97] := by
    refine (Runs.meets_nil _).concat ?_
    intro u hu hfull
    cases Option.some.inj hu
    exact absurd hfull (by decide)
  have hlookup : Runs.Meets step Undisturbed init [.line 0 97, .lookup 1 9] := by
    refine hfirst.concat ?_
    intro u hu
    have hsizes : (Runs.run step init [.line 0 97]).map
        (fun s => s.kernel.dev.circularBuffer.liveSizes) = some [2] := by decide
    rw [hu, Option.map_some, Option.some.injEq] at hsizes
    apply CircularBuffer.walkFits_of_small
    · rw [hsizes]
      decide
    · rw [hsizes]
      decide
  have hwrite : Runs.Meets step Undisturbed init [.line 0 97, .lookup 1 9, .line 0 98] := by
    refine hlookup.concat ?_
    intro u hu hfull
    have hnot : (Runs.run step init [.line 0 97, .lookup 1 9]).map
        (fun s => s.kernel.dev.circularBuffer.full) = some false := by decide
    rw [hu, Option.map_some, Option.some.injEq] at hnot
    simp [hnot] at hfull
  exact ⟨s, _, hs, hrd, reads_consistent_of_undisturbed _ hwrite⟩

/-- The commands "a" to "j", each with its newline. -/
def Act.tenLines : List Act :=
  [.line 0 97, .line 0 98, .line 0 99, .line 0 100, .line 0 101, .line 0 102, .line 0 103,
    .line 0 104, .line 0 105, .line 0 106]

/-- A reader at position 0 of a full device looks up the oldest command, "a" and
a newline; an eleventh command, "x" and a newline, takes that slot, and the copy
returns it, though the content at position 0 is now "b" and a newline. -/
theorem read_of_evicted_slot :
    ¬ ReadsConsistent (Act.tenLines ++ .lookup 1 2 :: [.line 0 120]) := by
  intro h
  have hvals : (Runs.run step init (Act.tenLines ++ .lookup 1 2 :: [.line 0 120])).map
      (fun s => (s.reading 1, (s.copyNow ⟨0, 2, 0, 0⟩ 0).map ReadResult.data,
        s.kernel.dev.circularBuffer.live.map s.kernel.bytesOf)) =
      some (some ⟨0, 2, 0, 0⟩, some [120, 10],
        ([[98, 10], [99, 10], [100, 10], [101, 10], [102, 10], [103, 10], [104, 10],
          [105, 10], [106, 10], [120, 10]] : List (List UInt8)).map some) := by decide
  have hbefore : (Runs.run step init (Act.tenLines ++ [.lookup 1 2])).map
      (fun s => s.kernel.dev.circularBuffer.live.map s.kernel.bytesOf) =
      some (([[97, 10], [98, 10], [99, 10], [100, 10], [101, 10], [102, 10], [103, 10],
        [104, 10], [105, 10], [106, 10]] : List (List UInt8)).map some) := by decide
  obtain ⟨s, hs, hvals⟩ := Option.map_eq_some_iff.mp hvals
  simp only [Prod.mk.injEq] at hvals
  obtain ⟨hrd, hcopy, hlive⟩ := hvals
  obtain ⟨since, rest, t, cmds, hsince, ht, hcmds, hread⟩ :=
    h _ 1 2 _ s _ rfl (by decide) hs hrd
  obtain ⟨r, hr, _, hfull⟩ := hread 0
  rw [hr, Option.map_some, Option.some.injEq, (hfull rfl).1] at hcopy
  rcases List.singleton_eq_append_iff.mp hsince with ⟨rfl, _⟩ | ⟨rfl, _⟩
  · rw [ht, Option.map_some, Option.some.injEq] at hbefore
    cases liveCommands_unique _ cmds _ hcmds hbefore
    exact absurd hcopy (by decide)
  · cases Option.some.inj (ht.symm.trans hs)
    cases liveCommands_unique _ cmds _ hcmds hlive
    exact absurd hcopy (by decide)

end Aesd.ConcurrentReads
