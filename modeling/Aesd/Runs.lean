import Mathlib.Data.List.Induction
import Mathlib.Logic.Relation

/-!
Finite runs of a partial step function. A step that is not defined stops the
run. Invariants may mention the list of actions taken so far, and may rely on
a condition that every step of the run meets in the state before it.
-/
namespace Aesd.Runs

variable {σ ι : Type*}

def run (step : σ → ι → Option σ) : σ → List ι → Option σ
  | s, [] => some s
  | s, a :: rest => (step s a).bind (fun t => run step t rest)

variable {step : σ → ι → Option σ} {s t : σ}

theorem run_append (step : σ → ι → Option σ) (s : σ) (xs ys : List ι) :
    run step s (xs ++ ys) = (run step s xs).bind (fun t => run step t ys) := by
  induction xs generalizing s with
  | nil => rfl
  | cons a rest ih =>
    simp only [List.cons_append, run, Option.bind_assoc]
    congr 1
    funext t
    exact ih t

theorem run_concat (step : σ → ι → Option σ) (s : σ) (xs : List ι) (a : ι) :
    run step s (xs ++ [a]) = (run step s xs).bind (fun t => step t a) := by
  rw [run_append]
  congr 1
  funext t
  simp [run]

theorem run_concat_eq_some (xs : List ι) (a : ι) :
    run step s (xs ++ [a]) = some t ↔ ∃ u, run step s xs = some u ∧ step u a = some t := by
  rw [run_concat, Option.bind_eq_some_iff]

/-- A defined run is defined on each of its prefixes. -/
theorem run_split (xs ys : List ι) (h : run step s (xs ++ ys) = some t) :
    ∃ u, run step s xs = some u ∧ run step u ys = some t := by
  rw [run_append, Option.bind_eq_some_iff] at h
  exact h

/-- Every step of the run meets `ok` in the state it is taken from. -/
def Meets (step : σ → ι → Option σ) (ok : σ → ι → Prop) (s : σ) (acts : List ι) : Prop :=
  ∀ done a rest u, acts = done ++ a :: rest → run step s done = some u → ok u a

theorem Meets.init {ok : σ → ι → Prop} {acts more : List ι}
    (h : Meets step ok s (acts ++ more)) : Meets step ok s acts := by
  intro done a rest u hacts hrun
  exact h done a (rest ++ more) u (by simp [hacts]) hrun

theorem Meets.last {ok : σ → ι → Prop} {acts : List ι} {a : ι}
    (h : Meets step ok s (acts ++ [a])) (hrun : run step s acts = some t) : ok t a :=
  h acts a [] t rfl hrun

theorem Meets.tail {ok : σ → ι → Prop} {acts more : List ι}
    (h : Meets step ok s (acts ++ more)) (hrun : run step s acts = some t) :
    Meets step ok t more := by
  intro done a rest u hmore hu
  apply h (acts ++ done) a rest u (by simp [hmore])
  rw [run_append, hrun, Option.bind_some, hu]

theorem meets_nil (ok : σ → ι → Prop) : Meets step ok s [] := by
  intro done a rest u hnil
  simp at hnil

/-- An element of a list with a new last one is the new one or one of the old. -/
theorem concat_split {xs done rest : List ι} {a b : ι} (h : xs ++ [a] = done ++ b :: rest) :
    (xs = done ∧ a = b) ∨ ∃ rest', xs = done ++ b :: rest' := by
  rcases List.eq_nil_or_concat rest with rfl | ⟨rest, c, rfl⟩
  · obtain ⟨hinit, hlast⟩ := List.append_inj' h rfl
    exact Or.inl ⟨hinit, List.singleton_inj.mp hlast⟩
  · rw [List.concat_eq_append, ← List.cons_append, ← List.append_assoc] at h
    exact Or.inr ⟨rest, (List.append_inj' h rfl).1⟩

theorem Meets.concat {ok : σ → ι → Prop} {acts : List ι} {a : ι} (h : Meets step ok s acts)
    (hlast : ∀ u, run step s acts = some u → ok u a) : Meets step ok s (acts ++ [a]) := by
  intro done b rest u hacts hrun
  rcases concat_split hacts with ⟨rfl, rfl⟩ | ⟨rest, hacts⟩
  · exact hlast u hrun
  · exact h done b rest u hacts hrun

theorem meets_concat_iff {ok : σ → ι → Prop} {acts : List ι} {a : ι}
    (hrun : run step s acts = some t) :
    Meets step ok s (acts ++ [a]) ↔ Meets step ok s acts ∧ ok t a := by
  constructor
  · intro h
    exact ⟨h.init, h.last hrun⟩
  · intro h
    apply h.1.concat
    intro u hu
    cases Option.some.inj (hrun.symm.trans hu)
    exact h.2

theorem meets_cons_iff {ok : σ → ι → Prop} {a : ι} {rest : List ι} :
    Meets step ok s (a :: rest) ↔ ok s a ∧ ∀ t ∈ step s a, Meets step ok t rest := by
  constructor
  · intro h
    refine ⟨h [] a rest s rfl rfl, ?_⟩
    intro t ht done b rest' u hrest hrun
    apply h (a :: done) b rest' u (by rw [hrest, List.cons_append])
    rw [run, Option.mem_def.mp ht, Option.bind_some, hrun]
  · intro h done b rest' u hacts hrun
    cases done with
    | nil =>
      cases hacts
      cases Option.some.inj hrun
      exact h.1
    | cons c done =>
      obtain ⟨rfl, hrest⟩ := List.cons.inj hacts
      obtain ⟨t, ht, hu⟩ := Option.bind_eq_some_iff.mp hrun
      exact h.2 t ht done b rest' u hrest hu

/-- Whether all steps of a run meet a decidable condition can be computed. -/
instance decidableMeets {ok : σ → ι → Prop} [∀ s a, Decidable (ok s a)] :
    ∀ (s : σ) (acts : List ι), Decidable (Meets step ok s acts)
  | _, [] => .isTrue (meets_nil ok)
  | s, a :: rest =>
      have : ∀ t, Decidable (Meets step ok t rest) := fun t => decidableMeets t rest
      decidable_of_iff (ok s a ∧ ∀ t ∈ step s a, Meets step ok t rest) meets_cons_iff.symm

/-- The rule for invariants of a state together with the actions that led to it. -/
theorem run_history (P : List ι → σ → Prop) (ok : σ → ι → Prop) (hinit : P [] s)
    (hstep : ∀ acts u a v, P acts u → ok u a → step u a = some v → P (acts ++ [a]) v)
    (acts : List ι) (hmeets : Meets step ok s acts) (hrun : run step s acts = some t) :
    P acts t := by
  induction acts using List.reverseRecOn generalizing t with
  | nil =>
    cases Option.some.inj hrun
    exact hinit
  | append_singleton done a ih =>
    obtain ⟨u, hu, ha⟩ := (run_concat_eq_some done a).mp hrun
    exact hstep done u a t (ih hmeets.init hu) (hmeets.last hu) ha

/-- The rule for plain state invariants. -/
theorem run_invariant (P : σ → Prop) (ok : σ → ι → Prop) (hinit : P s)
    (hstep : ∀ u a v, P u → ok u a → step u a = some v → P v)
    (acts : List ι) (hmeets : Meets step ok s acts) (hrun : run step s acts = some t) : P t :=
  run_history (fun _ u => P u) ok hinit (fun _ u a v => hstep u a v) acts hmeets hrun

/-- Whatever steps that meet `ok` are taken from `s` on, they can be taken, and
they come to a state in `Q`. -/
inductive Leads (step : σ → ι → Option σ) (ok : σ → ι → Prop) (Q : σ → Prop) : σ → Prop
  | here (s : σ) (h : Q s) : Leads step ok Q s
  | next (s : σ) (hable : ∃ a, ok s a) (hdefined : ∀ a, ok s a → ∃ t, step s a = some t)
      (hnext : ∀ a t, ok s a → step s a = some t → Leads step ok Q t) : Leads step ok Q s

theorem Leads.trans {ok : σ → ι → Prop} {P Q : σ → Prop} (h : Leads step ok P s)
    (hPQ : ∀ t, P t → Leads step ok Q t) : Leads step ok Q s := by
  induction h with
  | here s hs => exact hPQ s hs
  | next s hable hdefined _ ih => exact .next s hable hdefined ih

/-- Where two runs can only come to an end, they come to the same one. -/
theorem Leads.meet {ok : σ → ι → Prop} {P Q : σ → Prop} (hP : ∀ t a, P t → ¬ ok t a)
    (hQ : ∀ t a, Q t → ¬ ok t a) (h : Leads step ok P s) (h' : Leads step ok Q s) :
    ∃ t, P t ∧ Q t := by
  induction h with
  | here s hs =>
    cases h' with
    | here _ hs' => exact ⟨s, hs, hs'⟩
    | next _ hable _ _ =>
      obtain ⟨a, ha⟩ := hable
      exact absurd ha (hP s a hs)
  | next s hable hdefined hnext ih =>
    obtain ⟨a, ha⟩ := hable
    cases h' with
    | here _ hs' => exact absurd ha (hQ s a hs')
    | next _ _ _ hnext' =>
      obtain ⟨t, ht⟩ := hdefined a ha
      exact ih a t ha ht (hnext' a t ha ht)

/-- What holds of a state with more data in it holds of the state itself. -/
theorem Leads.map {τ : Type*} {step' : τ → ι → Option τ} {ok : σ → ι → Prop} {Q : σ → Prop}
    (f : τ → σ) (hstep : ∀ u a, step (f u) a = (step' u a).map f) {u : τ}
    (h : Leads step' (fun u a => ok (f u) a) (fun u => Q (f u)) u) : Leads step ok Q (f u) := by
  induction h with
  | here u hu => exact .here _ hu
  | next u hable hdefined hnext ih =>
    apply Leads.next _ hable
    · intro a ha
      obtain ⟨t, ht⟩ := hdefined a ha
      exact ⟨f t, by rw [hstep, ht, Option.map_some]⟩
    · intro a t ha ht
      rw [hstep, Option.map_eq_some_iff] at ht
      obtain ⟨t', ht', rfl⟩ := ht
      exact ih a t' ha ht'

/-- A machine without choices that every step can follow: where the machine gets,
the runs get. -/
theorem leads_of_simulation {τ : Type*} {next : τ → Option τ} {ok : σ → ι → Prop}
    (R : τ → σ → Prop)
    (hsim : ∀ c d s, R c s → next c = some d →
      (∃ a, ok s a) ∧ ∀ a, ok s a → ∃ t, step s a = some t ∧ R d t)
    {c d : τ} (hgoes : Relation.ReflTransGen (fun c d => next c = some d) c d) (h : R c s) :
    Leads step ok (R d) s := by
  induction hgoes using Relation.ReflTransGen.head_induction_on generalizing s with
  | refl => exact .here s h
  | head hnext _ ih =>
    obtain ⟨hable, hsteps⟩ := hsim _ _ s h hnext
    apply Leads.next s hable
    · intro a ha
      obtain ⟨t, ht, _⟩ := hsteps a ha
      exact ⟨t, ht⟩
    · intro a t ha ht
      obtain ⟨t', ht', hR⟩ := hsteps a ha
      cases Option.some.inj (ht.symm.trans ht')
      exact ih hR

end Aesd.Runs
