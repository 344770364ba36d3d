import Aesd.ModuleLoads

/-!
The module is loaded and unloaded again and again. Each successful load registers one device
number and starts with an empty device; each unload takes the number back and frees the
stored commands. What other users have is never touched, and the only blocks left behind
are those of commands that were not complete when the module was unloaded.
-/
namespace Aesd.Driver

/-- What the lives of the module come to: the commands written since the last load, while the
module is loaded, and the number of commands lost in unloads. -/
structure Lives where
  current : Option CommandLog
  lost : ℕ

def Lives.step (l : Lives) : Action → Lives
  | .load a => if a.regionErrno = 0 ∧ a.cdevErrno = 0 then ⟨some .empty, l.lost⟩ else l
  | .write call => ⟨l.current.map (fun log => log.after [call]), l.lost⟩
  | .unload => ⟨none, l.lost + if (l.current.getD .empty).pending = [] then 0 else 1⟩

def livesOf (acts : List Action) : Lives := acts.foldl Lives.step ⟨none, 0⟩

/-- The table is as it was, but for the number of the loaded module. -/
def Registered (before now : Store Unit) (s : System) : Prop :=
  ∀ n, now.data n = if s.loaded = true ∧ n = s.aesdMajor then some () else before.data n

/-- The blocks of others and those that earlier lives have left behind. -/
def awayFrom (s₀ : System) (leaked : List ℕ) (b : ℕ) : Bool :=
  (s₀.kernel.heap.data b).isSome || decide (b ∈ leaked)

theorem awayFrom_iff (s₀ : System) (leaked : List ℕ) (b : ℕ) :
    awayFrom s₀ leaked b = true ↔ s₀.kernel.heap.data b ≠ none ∨ b ∈ leaked := by
  simp [awayFrom, Option.isSome_iff_ne_none]

/-- The device as the current life has left it. -/
def InLife (s₀ : System) (leaked : List ℕ) (s : System) : Option CommandLog → Prop
  | some log => s.loaded = true ∧ s₀.regions.data s.aesdMajor = none ∧ Refines s.kernel log ∧
      log.Fits ∧ Beside (awayFrom s₀ leaked) s.kernel
  | none => s.loaded = false ∧
      ∀ b, s.kernel.heap.data b ≠ none ↔ awayFrom s₀ leaked b = true

/-- What holds after the actions `acts`. -/
structure Lived (s₀ : System) (acts : List Action) (s : System) (leaked : List ℕ) : Prop where
  nodup : leaked.Nodup
  lost : leaked.length = (livesOf acts).lost
  new : ∀ b ∈ leaked, s₀.kernel.heap.data b = none
  others : ∀ b, s₀.kernel.heap.data b ≠ none → s.kernel.heap.data b = s₀.kernel.heap.data b
  regions : Registered s₀.regions s.regions s
  cdevs : Registered s₀.cdevs s.cdevs s
  life : InLife s₀ leaked s (livesOf acts).current

theorem livesOf_concat (acts : List Action) (a : Action) :
    livesOf (acts ++ [a]) = (livesOf acts).step a := by
  simp [livesOf]

theorem lived_start (s₀ : System) (h : s₀.loaded = false) : Lived s₀ [] s₀ [] where
  nodup := List.nodup_nil
  lost := rfl
  new b hb := by cases hb
  others _ _ := rfl
  regions n := by simp [h]
  cdevs n := by simp [h]
  life := by
    refine ⟨h, fun b => ?_⟩
    rw [awayFrom_iff]
    simp

section Lives

variable {s₀ s t : System} {acts : List Action} {leaked : List ℕ}

/-- A device that has just been set up refers to no block. -/
theorem beside_init {away : ℕ → Bool} {heap : Heap UInt8}
    (h : ∀ b, heap.data b ≠ none ↔ away b = true) : Beside away ⟨aesdInitModule.dev, heap⟩ where
  kept b hb := (h b).mpr hb
  apart b hb := by
    have hnone : (⟨aesdInitModule.dev, heap⟩ : Kernel).blocks = [] := by
      simp only [Kernel.blocks]
      decide
    rw [hnone] at hb
    cases hb
  noStray b hb := by
    obtain ⟨hseen, hdata⟩ := (Store.data_hide_ne_none_iff heap away b).mp hb
    rw [(h b).mp hdata] at hseen
    cases hseen

/-- The empty device does not depend on what the heap holds. -/
theorem refines_empty (heap : Heap UInt8) : Refines ⟨aesdInitModule.dev, heap⟩ .empty :=
  ⟨⟨[], ⟨holds_init.tracks, rfl, holds_init.nonempty, fun _ _ _ _ he => (by simp at he),
    holds_init.distinct, holds_init.apart, rfl⟩⟩, Or.inl ⟨rfl, rfl⟩⟩

theorem Lived.load (h : Lived s₀ acts s leaked) (a : LoadAnswer)
    (hstep : s.step (.load a) = some t) : Lived s₀ (acts ++ [.load a]) t leaked := by
  obtain ⟨hloaded, heq⟩ := Option.ite_none_left_eq_some.mp hstep
  cases Option.some.inj heq
  have hunloaded : s.loaded = false := Bool.eq_false_iff.mpr hloaded
  have hregions : ∀ n, s.regions.data n = s₀.regions.data n := by
    intro n
    have hn := h.regions n
    simpa [hunloaded] using hn
  have hcdevs : ∀ n, s.cdevs.data n = s₀.cdevs.data n := by
    intro n
    have hn := h.cdevs n
    simpa [hunloaded] using hn
  have hlife := h.life
  cases hcurrent : (livesOf acts).current with
  | some log =>
    rw [hcurrent] at hlife
    rw [hlife.1] at hunloaded
    cases hunloaded
  | none =>
    rw [hcurrent] at hlife
    obtain ⟨_, hheap⟩ := hlife
    have hfree := s.regions.data_fresh a.major
    by_cases hregion : a.regionErrno = 0
    · by_cases hcdev : a.cdevErrno = 0
      · have hlives : livesOf (acts ++ [.load a]) = ⟨some .empty, (livesOf acts).lost⟩ := by
          rw [livesOf_concat, Lives.step, if_pos ⟨hregion, hcdev⟩]
        have hnew : s₀.regions.data (s.regions.fresh a.major) = none := by
          rw [← hregions, hfree]
        simp only [System.initModule, hregion, hcdev, ne_eq, not_true_eq_false, if_false,
          decide_true]
        refine ⟨h.nodup, by rw [hlives]; exact h.lost, h.new, h.others, ?_, ?_, ?_⟩
        · intro n
          by_cases hn : n = s.regions.fresh a.major
          · simp [hn]
          · simp [hn, Store.data_set_of_ne _ _ hn, hregions]
        · intro n
          by_cases hn : n = s.regions.fresh a.major
          · simp [hn]
          · simp [hn, Store.data_set_of_ne _ _ hn, hcdevs]
        · rw [hlives]
          exact ⟨rfl, hnew, refines_empty _, CommandLog.fits_empty, beside_init hheap⟩
      · have hlives : livesOf (acts ++ [.load a]) = livesOf acts := by
          rw [livesOf_concat, Lives.step, if_neg (fun hboth => hcdev hboth.2)]
        have hfailed : ¬ -(a.cdevErrno : ℤ) = 0 := by omega
        simp only [System.initModule, hregion, hcdev, ne_eq, not_true_eq_false, if_false,
          not_false_eq_true, if_true, hfailed, decide_false]
        refine ⟨h.nodup, by rw [hlives]; exact h.lost, h.new, h.others, ?_, ?_, ?_⟩
        · intro n
          simp [Store.data_erase_set _ _ hfree, hregions]
        · intro n
          simp [hcdevs]
        · rw [hlives, hcurrent]
          exact ⟨rfl, hheap⟩
    · have hlives : livesOf (acts ++ [.load a]) = livesOf acts := by
        rw [livesOf_concat, Lives.step, if_neg (fun hboth => hregion hboth.1)]
      have hfailed : ¬ -(a.regionErrno : ℤ) = 0 := by omega
      simp only [System.initModule, hregion, ne_eq, not_false_eq_true, if_true, hfailed,
        decide_false]
      refine ⟨h.nodup, by rw [hlives]; exact h.lost, h.new, h.others, ?_, ?_, ?_⟩
      · intro n
        simp [hregions]
      · intro n
        simp [hcdevs]
      · rw [hlives, hcurrent]
        exact ⟨rfl, hheap⟩

theorem Lived.write (h : Lived s₀ acts s leaked) (call : WriteCall) (hcopy : call.uncopied = 0)
    (hstep : s.step (.write call) = some t) : Lived s₀ (acts ++ [.write call]) t leaked := by
  obtain ⟨hloaded, heq⟩ := Option.ite_none_right_eq_some.mp hstep
  obtain ⟨r, hr, rfl⟩ := Option.map_eq_some_iff.mp heq
  have hlife := h.life
  cases hcurrent : (livesOf acts).current with
  | none =>
    rw [hcurrent] at hlife
    rw [hlife.1] at hloaded
    cases hloaded
  | some log =>
    rw [hcurrent] at hlife
    obtain ⟨_, hnew, hrefines, hfits, hbeside⟩ := hlife
    obtain ⟨es, hholds⟩ := hrefines.1
    obtain ⟨hnext, hsame⟩ := hbeside.write hholds call hcopy r hr
    obtain ⟨hrefines', hfits'⟩ := hrefines.next hfits call hcopy r hr
    have hlives : livesOf (acts ++ [.write call]) = ⟨some (log.after [call]),
        (livesOf acts).lost⟩ := by
      rw [livesOf_concat, Lives.step, hcurrent, Option.map_some]
    refine ⟨h.nodup, by rw [hlives]; exact h.lost, h.new, ?_, h.regions, h.cdevs, ?_⟩
    · intro b hb
      rw [← h.others b hb]
      exact hsame b ((awayFrom_iff s₀ leaked b).mpr (Or.inl hb))
    · rw [hlives]
      exact ⟨hloaded, hnew, hrefines', hfits', hnext⟩

/-- Taking the number of the module back leaves the table as it was before the load. -/
theorem Registered.erase {before now : Store Unit} (h : Registered before now s)
    (hfree : before.data s.aesdMajor = none) (n : ℕ) :
    (now.erase s.aesdMajor).data n = before.data n := by
  by_cases hn : n = s.aesdMajor
  · rw [hn, Store.data_erase_self, hfree]
  · rw [Store.data_erase_of_ne _ hn, h n, if_neg (fun hboth => hn hboth.2)]

/-- In a life the unload is always possible; it gives back all but the pending block. -/
theorem InLife.cleanup {log : CommandLog} (h : InLife s₀ leaked s (some log)) :
    ∃ k', aesdCleanupModule s.kernel = some k' ∧
      (∀ b, awayFrom s₀ leaked b = true → k'.heap.data b = s.kernel.heap.data b) ∧
      ∀ b, k'.heap.data b ≠ none ↔
        awayFrom s₀ leaked b = true ∨ s.kernel.dev.entryCache.buffptr = some b := by
  obtain ⟨_, _, ⟨⟨es, hholds⟩, hcache⟩, _, hbeside⟩ := h
  exact hbeside.cleanup hholds hcache

theorem Lived.unload (h : Lived s₀ acts s leaked)
    (hnumbers : ∀ n, s₀.cdevs.data n ≠ none → s₀.regions.data n ≠ none)
    (hstep : s.step .unload = some t) : ∃ leaked', Lived s₀ (acts ++ [.unload]) t leaked' := by
  obtain ⟨hloaded, heq⟩ := Option.ite_none_right_eq_some.mp hstep
  obtain ⟨s', hs', rfl⟩ := Option.map_eq_some_iff.mp heq
  obtain ⟨k, hk, rfl⟩ := Option.map_eq_some_iff.mp hs'
  have hlife := h.life
  cases hcurrent : (livesOf acts).current with
  | none =>
    rw [hcurrent] at hlife
    rw [hlife.1] at hloaded
    cases hloaded
  | some log =>
    rw [hcurrent] at hlife
    obtain ⟨k', hk', hsame, hleft⟩ := hlife.cleanup
    cases Option.some.inj (hk.symm.trans hk')
    obtain ⟨_, hnew, ⟨_, hcache⟩, _, hbeside⟩ := hlife
    have hcdev : s₀.cdevs.data s.aesdMajor = none := by
      by_contra hne
      exact hnumbers _ hne hnew
    have hothers : ∀ b, s₀.kernel.heap.data b ≠ none → k.heap.data b = s₀.kernel.heap.data b := by
      intro b hb
      rw [hsame b ((awayFrom_iff s₀ leaked b).mpr (Or.inl hb)), h.others b hb]
    have hlives : livesOf (acts ++ [.unload]) =
        ⟨none, (livesOf acts).lost + if log.pending = [] then 0 else 1⟩ := by
      rw [livesOf_concat, Lives.step, hcurrent, Option.getD_some]
    have hregions := h.regions.erase hnew
    have hcdevs := h.cdevs.erase hcdev
    rcases hcache with ⟨hnil, hentry⟩ | ⟨hne, p, hentry, _⟩
    · refine ⟨leaked, h.nodup, by rw [hlives, if_pos hnil]; exact h.lost, h.new, hothers,
        ?_, ?_, ?_⟩
      · intro n
        simpa using hregions n
      · intro n
        simpa using hcdevs n
      · rw [hlives]
        refine ⟨rfl, fun b => ?_⟩
        simpa [hentry] using hleft b
    · have hp := hbeside.apart p (Kernel.mem_blocks_of_cache (by rw [hentry]))
      have hout : s₀.kernel.heap.data p = none ∧ p ∉ leaked := by
        have hnot : ¬ awayFrom s₀ leaked p = true := by simp [hp]
        rw [awayFrom_iff] at hnot
        push Not at hnot
        exact hnot
      refine ⟨leaked ++ [p], ?_, ?_, ?_, hothers, ?_, ?_, ?_⟩
      · rw [List.nodup_append]
        refine ⟨h.nodup, List.nodup_singleton p, ?_⟩
        intro b hb c hc hbc
        rw [List.mem_singleton.mp hc] at hbc
        exact hout.2 (hbc ▸ hb)
      · rw [hlives, if_neg hne, List.length_append, List.length_singleton, h.lost]
      · intro b hb
        rcases List.mem_append.mp hb with hold | hlast
        · exact h.new b hold
        · rw [List.mem_singleton.mp hlast]
          exact hout.1
      · intro n
        simpa using hregions n
      · intro n
        simpa using hcdevs n
      · rw [hlives]
        refine ⟨rfl, fun b => ?_⟩
        have hb := hleft b
        rw [awayFrom_iff] at hb ⊢
        rw [hb, hentry, List.mem_append, List.mem_singleton, or_assoc, Option.some.injEq,
          eq_comm (a := p)]

theorem lived_of_run (hunloaded : s₀.loaded = false)
    (hnumbers : ∀ n, s₀.cdevs.data n ≠ none → s₀.regions.data n ≠ none) (acts : List Action)
    (hcopy : ∀ call, Action.write call ∈ acts → call.uncopied = 0)
    (hrun : Runs.run System.step s₀ acts = some s) : ∃ leaked, Lived s₀ acts s leaked := by
  refine Runs.run_history (fun acts s => ∃ leaked, Lived s₀ acts s leaked)
    (fun _ a => ∀ call, a = .write call → call.uncopied = 0) ⟨[], lived_start s₀ hunloaded⟩ ?_
    acts ?_ hrun
  · rintro acts u a v ⟨leaked, hlived⟩ hcall hstep
    cases a with
    | load a => exact ⟨leaked, hlived.load a hstep⟩
    | write call => exact ⟨leaked, hlived.write call (hcall call rfl) hstep⟩
    | unload => exact hlived.unload hnumbers hstep
  · rintro done a rest u rfl _ call rfl
    exact hcopy call (by simp)

end Lives

/-- A run of loads, writes and unloads, whatever the kernel answers: the tables of device
numbers and of character devices differ from those before by the loaded module alone;
the blocks of other users are as they were; the module while it is loaded holds exactly
what has been written since that load, and can be unloaded. The blocks that nobody
refers to any more are as many as the unloads that found a command not complete. -/
theorem module_lives (s₀ : System) (hunloaded : s₀.loaded = false)
    (hnumbers : ∀ n, s₀.cdevs.data n ≠ none → s₀.regions.data n ≠ none) (acts : List Action)
    (hcopy : ∀ call, Action.write call ∈ acts → call.uncopied = 0) (s : System)
    (hrun : Runs.run System.step s₀ acts = some s) :
    Registered s₀.regions s.regions s ∧ Registered s₀.cdevs s.cdevs s ∧
      (∀ b, s₀.kernel.heap.data b ≠ none → s.kernel.heap.data b = s₀.kernel.heap.data b) ∧
      (s.loaded = true ↔ (livesOf acts).current ≠ none) ∧
      (∀ log, (livesOf acts).current = some log →
        Refines s.kernel log ∧ ∃ t, s.step .unload = some t) ∧
      ∃ leaked : List ℕ, leaked.Nodup ∧ leaked.length = (livesOf acts).lost ∧
        (∀ b ∈ leaked, s₀.kernel.heap.data b = none ∧
          (s.loaded = true → b ∉ s.kernel.blocks)) ∧
        ∀ b, s.kernel.heap.data b ≠ none ↔
          s₀.kernel.heap.data b ≠ none ∨ b ∈ leaked ∨ s.loaded = true ∧ b ∈ s.kernel.blocks := by
  obtain ⟨leaked, hlived⟩ := lived_of_run hunloaded hnumbers acts hcopy hrun
  have hlife := hlived.life
  refine ⟨hlived.regions, hlived.cdevs, hlived.others, ?_⟩
  cases hcurrent : (livesOf acts).current with
  | none =>
    rw [hcurrent] at hlife
    obtain ⟨hout, hheap⟩ := hlife
    refine ⟨by simp [hout], ?_, leaked, hlived.nodup, hlived.lost, ?_, ?_⟩
    · intro log hlog
      cases hlog
    · intro b hb
      exact ⟨hlived.new b hb, fun hin => absurd hin (by simp [hout])⟩
    · intro b
      rw [hheap b, awayFrom_iff]
      simp [hout]
  | some log =>
    rw [hcurrent] at hlife
    obtain ⟨k', hk', _⟩ := hlife.cleanup
    obtain ⟨hin, _, hrefines, _, hbeside⟩ := hlife
    obtain ⟨⟨es, hholds⟩, hcache⟩ := hrefines
    refine ⟨by simp [hin], ?_, leaked, hlived.nodup, hlived.lost, ?_, ?_⟩
    · rintro log' hlog'
      cases hlog'
      refine ⟨⟨⟨es, hholds⟩, hcache⟩, ?_⟩
      rw [System.step, if_pos hin, System.cleanupModule, hk']
      exact ⟨_, rfl⟩
    · intro b hb
      refine ⟨hlived.new b hb, fun _ hmem => ?_⟩
      have hseen := hbeside.apart b hmem
      rw [(awayFrom_iff s₀ leaked b).mpr (Or.inr hb)] at hseen
      cases hseen
    · intro b
      rw [hbeside.allocated_iff hholds hcache b, awayFrom_iff, or_assoc]
      simp [hin]

/-- The kernel before the first load, with two numbers and one block in use. -/
def System.booted : System where
  kernel := ⟨aesdInitModule.dev, (Store.empty : Heap UInt8).set 0 [1, 2, 3]⟩
  aesdMajor := 0
  regions := (Store.empty.set 1 ()).set 4 ()
  cdevs := Store.empty.set 4 ()
  loaded := false

/-- A failed load and two lives, the first of which ends with a byte that is not complete. -/
def twoLives : List Action :=
  [.load ⟨0, 4, 12⟩, .load ⟨0, 4, 0⟩, .write (.granted ⟨[97, 10], by decide⟩ 0),
   .write (.granted ⟨[98], by decide⟩ 0), .unload, .load ⟨0, 7, 0⟩,
   .write (.granted ⟨[99], by decide⟩ 0)]

theorem module_lives_two :
    ∃ s, Runs.run System.step System.booted twoLives = some s ∧ s.loaded = true ∧
      s.kernel.heap.data 0 = some [1, 2, 3] ∧ Refines s.kernel ⟨[], [99]⟩ ∧
      (∃ t, s.step .unload = some t) ∧
      ∃ leaked : List ℕ, leaked.length = 1 ∧ ∀ b ∈ leaked, b ∉ s.kernel.blocks := by
  have hsome : (Runs.run System.step System.booted twoLives).isSome = true := by decide
  obtain ⟨s, hs⟩ := Option.isSome_iff_exists.mp hsome
  obtain ⟨_, _, hothers, hloaded, hlife, leaked, _, hlost, hleaked, _⟩ :=
    module_lives System.booted rfl (by
      intro n hn
      by_cases hfour : n = 4
      · rw [hfour]
        decide
      · exact absurd (Store.data_set_of_ne _ _ hfour) hn) twoLives (by
      intro call hcall
      simp only [twoLives, List.mem_cons, Action.write.injEq, reduceCtorEq, List.not_mem_nil,
        or_false, false_or] at hcall
      rcases hcall with rfl | rfl | rfl
      · rfl
      · rfl
      · rfl) s hs
  have hin : s.loaded = true := hloaded.mpr (by decide)
  obtain ⟨hrefines, hunload⟩ := hlife ⟨[], [99]⟩ rfl
  exact ⟨s, hs, hin, hothers 0 (by decide), hrefines, hunload, leaked, hlost,
    fun b hb => (hleaked b hb).2 hin⟩

end Aesd.Driver
