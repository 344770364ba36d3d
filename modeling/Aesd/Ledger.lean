import Aesd.Heap
import Aesd.Runs

/-!
The history of an allocator as a list of events. Each number names a place at
which at most one block is allocated at a time, so a place whose allocations and
releases alternate has had each of its blocks released exactly once.
-/
namespace Aesd.Ledger

inductive Event
  | alloc (b : ℕ)
  | free (b : ℕ)
  deriving DecidableEq

/-- An event on the table of allocated places. A place that is taken cannot be
allocated, and a place that is free cannot be released. -/
def apply (held : ℕ → Bool) : Event → Option (ℕ → Bool)
  | .alloc b => if held b then none else some (Function.update held b true)
  | .free b => if held b then some (Function.update held b false) else none

/-- At every moment a place has been released as often as it has been allocated, or
once less while a block is there; at the end no block is there. -/
def FreedOnce (events : List Event) : Prop :=
  ∀ b, (∀ done rest, events = done ++ rest → done.count (.free b) ≤ done.count (.alloc b) ∧
      done.count (.alloc b) ≤ done.count (.free b) + 1) ∧
    events.count (.alloc b) = events.count (.free b)

theorem apply_count {held held' : ℕ → Bool} {e : Event} (h : apply held e = some held')
    (b : ℕ) : [e].count (.alloc b) + (held b).toNat = [e].count (.free b) + (held' b).toNat := by
  cases e with
  | alloc c =>
    simp only [apply] at h
    split at h
    · cases h
    · rename_i hfree
      cases h
      by_cases hb : b = c
      · subst hb
        simp [Bool.eq_false_iff.mpr hfree]
      · simp [Function.update_of_ne hb, Ne.symm hb]
  | free c =>
    simp only [apply] at h
    split at h
    · rename_i htaken
      cases h
      by_cases hb : b = c
      · subst hb
        simp [htaken]
      · simp [Function.update_of_ne hb, Ne.symm hb]
    · cases h

/-- What is allocated now and has not been before was allocated once more than released. -/
theorem run_count {held held' : ℕ → Bool} {events : List Event}
    (h : Runs.run apply held events = some held') (b : ℕ) :
    events.count (.alloc b) + (held b).toNat = events.count (.free b) + (held' b).toNat := by
  induction events generalizing held with
  | nil =>
    cases h
    rfl
  | cons e rest ih =>
    obtain ⟨next, he, hrest⟩ := Option.bind_eq_some_iff.mp h
    have hfirst := apply_count he b
    have hlast := ih hrest
    have hsplit : ∀ x : Event, (e :: rest).count x = [e].count x + rest.count x := by
      intro x
      rw [← List.count_append, List.singleton_append]
    rw [hsplit, hsplit]
    omega

/-- A history that starts with nothing allocated has released everything exactly
once if and only if nothing is allocated at its end. -/
theorem freedOnce_iff {held : ℕ → Bool} {events : List Event}
    (h : Runs.run apply (fun _ => false) events = some held) :
    FreedOnce events ↔ ∀ b, held b = false := by
  constructor
  · intro hfreed b
    have hcount := run_count h b
    have hequal := (hfreed b).2
    rw [Bool.toNat_false] at hcount
    rw [← Bool.toNat_eq_zero]
    omega
  · intro hnone b
    constructor
    · intro done rest hevents
      subst hevents
      obtain ⟨mid, hmid, _⟩ := Runs.run_split done rest h
      have hcount := run_count hmid b
      have hle := Bool.toNat_le (mid b)
      rw [Bool.toNat_false] at hcount
      omega
    · have hcount := run_count h b
      rw [hnone b, Bool.toNat_false] at hcount
      omega

section Heaps

variable {β ι : Type*}

/-- The places at which a heap has a block. -/
def held (h : Heap β) : ℕ → Bool := fun b => (h.data b).isSome

/-- The events of one `kfree`: none for a null pointer. -/
def freeEvents (ptr : Option ℕ) : List Event := ptr.toList.map .free

theorem run_freeEvents {h h' : Heap β} {ptr : Option ℕ} (hfree : h.kfree ptr = some h') :
    Runs.run apply (held h) (freeEvents ptr) = some (held h') := by
  cases ptr with
  | none =>
    cases hfree
    rfl
  | some p =>
    obtain ⟨hsome, heq⟩ := Option.ite_none_right_eq_some.mp hfree
    cases Option.some.inj heq
    have hheld : Function.update (held h) p false = held (h.erase p) := by
      funext b
      by_cases hb : b = p
      · subst hb
        simp [held]
      · rw [Function.update_of_ne hb, held, held, Store.data_erase_of_ne _ hb]
    simp only [freeEvents, Option.toList_some, List.map_cons, List.map_nil, Runs.run, apply]
    rw [if_pos (show held h p = true from hsome), Option.bind_some, hheld]

theorem run_alloc {h h' : Heap β} {b : ℕ} (hfree : h.data b = none) (hb : h'.data b ≠ none)
    (helse : ∀ c, c ≠ b → h'.data c = h.data c) :
    Runs.run apply (held h) [.alloc b] = some (held h') := by
  have hheld : Function.update (held h) b true = held h' := by
    funext c
    by_cases hc : c = b
    · subst hc
      rw [Function.update_self, held, eq_comm, Option.isSome_iff_ne_none]
      exact hb
    · rw [Function.update_of_ne hc, held, held, helse c hc]
  simp only [Runs.run, apply]
  rw [if_neg (by simp [held, hfree]), Option.bind_some, hheld]

/-- Releasing pointer after pointer, with its events. -/
theorem run_freeEvents_all (ptr : ι → Option ℕ) {h h' : Heap β} {is : List ι}
    (hfree : Runs.run (fun h i => h.kfree (ptr i)) h is = some h') :
    Runs.run apply (held h) (is.flatMap (fun i => freeEvents (ptr i))) = some (held h') := by
  induction is generalizing h with
  | nil =>
    cases hfree
    rfl
  | cons i rest ih =>
    obtain ⟨next, hnext, hrest⟩ := Option.bind_eq_some_iff.mp hfree
    rw [List.flatMap_cons, Runs.run_append, run_freeEvents hnext, Option.bind_some, ih hrest]

/-- Allocated blocks that are named once each can be released one after the other. -/
theorem run_kfree_defined (ptr : ι → Option ℕ) (h : Heap β) (is : List ι)
    (hheld : ∀ i ∈ is, ∀ b, ptr i = some b → h.data b ≠ none)
    (honce : is.Pairwise (fun i j => ∀ b, ptr i = some b → ptr j ≠ some b)) :
    ∃ h', Runs.run (fun h i => h.kfree (ptr i)) h is = some h' ∧
      ∀ b, h'.data b ≠ none ↔ h.data b ≠ none ∧ ∀ i ∈ is, ptr i ≠ some b := by
  induction is generalizing h with
  | nil => exact ⟨h, rfl, by simp⟩
  | cons i rest ih =>
    obtain ⟨hfirst, hrest⟩ := List.pairwise_cons.mp honce
    have hnext : ∃ next, h.kfree (ptr i) = some next := by
      cases hi : ptr i with
      | none => exact ⟨h, rfl⟩
      | some b =>
        have hb := hheld i (by simp) b hi
        exact ⟨h.erase b, if_pos (Option.isSome_iff_ne_none.mpr hb)⟩
    obtain ⟨next, hnext⟩ := hnext
    have hdata := Heap.kfree_data hnext
    obtain ⟨h', hrun, hh'⟩ := ih next (by
      intro j hj b hb
      rw [hdata, if_neg (fun hi => hfirst j hj b hi hb)]
      exact hheld j (by simp [hj]) b hb) hrest
    refine ⟨h', by rw [Runs.run, hnext, Option.bind_some, hrun], ?_⟩
    intro b
    rw [hh' b, hdata b, List.forall_mem_cons]
    by_cases hi : ptr i = some b
    · simp [hi]
    · simp [hi]

end Heaps

end Aesd.Ledger
