import Mathlib.Data.List.Basic

/-!
Machines that answer every input with an output, and what can be seen of them: the list
of outputs. Two machines that go in step answer alike, and inputs that no later answer
depends on can be left out.
-/
namespace Aesd.Traces

variable {σ τ ι ο : Type*}

/-- The state after a list of inputs, and the outputs on the way. An input without an
answer stops the machine. -/
def trace (step : σ → ι → Option (σ × ο)) : σ → List ι → Option (σ × List ο)
  | s, [] => some (s, [])
  | s, a :: rest => (step s a).bind (fun out =>
      (trace step out.1 rest).map (fun last => (last.1, out.2 :: last.2)))

/-- What can be seen of a run: its outputs, if it comes to the end of the inputs. -/
def outputs (step : σ → ι → Option (σ × ο)) (s : σ) (inputs : List ι) : Option (List ο) :=
  (trace step s inputs).map Prod.snd

variable {step : σ → ι → Option (σ × ο)} {step' : τ → ι → Option (τ × ο)}

theorem outputs_cons (s : σ) (a : ι) (rest : List ι) :
    outputs step s (a :: rest) = (step s a).bind (fun out =>
      (outputs step out.1 rest).map (fun os => out.2 :: os)) := by
  simp only [outputs, trace, Option.map_bind, Option.map_map, Function.comp_def]

theorem trace_append (s : σ) (front rest : List ι) :
    trace step s (front ++ rest) = (trace step s front).bind (fun mid =>
      (trace step mid.1 rest).map (fun last => (last.1, mid.2 ++ last.2))) := by
  induction front generalizing s with
  | nil => simp [trace]
  | cons a front ih =>
    rw [List.cons_append, trace, trace]
    simp only [ih, Option.map_bind, Option.bind_assoc, Option.bind_map, Option.map_map,
      Function.comp_def, List.cons_append]

/-- What a machine does not look at in its inputs can be changed. -/
theorem outputs_map (f : ι → ι) (hstep : ∀ s a, step s (f a) = step s a) (s : σ)
    (inputs : List ι) : outputs step s (inputs.map f) = outputs step s inputs := by
  induction inputs generalizing s with
  | nil => rfl
  | cons a rest ih =>
    rw [List.map_cons, outputs_cons, outputs_cons, hstep]
    simp only [ih]

/-- Both machines have no answer, or the same one, and stay related. -/
def Agree (R : σ → τ → Prop) : Option (σ × ο) → Option (τ × ο) → Prop
  | none, none => True
  | some out, some out' => out.2 = out'.2 ∧ R out.1 out'.1
  | _, _ => False

theorem Agree.map {σ' τ' ο' : Type*} {R : σ → τ → Prop} {R' : σ' → τ' → Prop}
    {x : Option (σ × ο)} {y : Option (τ × ο)} (h : Agree R x y) (f : σ × ο → σ' × ο')
    (g : τ × ο → τ' × ο')
    (hfg : ∀ s t o, R s t → (f (s, o)).2 = (g (t, o)).2 ∧ R' (f (s, o)).1 (g (t, o)).1) :
    Agree R' (x.map f) (y.map g) := by
  cases x with
  | none =>
    cases y with
    | none => trivial
    | some out' => exact h.elim
  | some out =>
    cases y with
    | none => exact h.elim
    | some out' =>
      obtain ⟨s, o⟩ := out
      obtain ⟨t, o'⟩ := out'
      obtain ⟨heq, hR⟩ := h
      cases heq
      exact hfg s t o hR

/-- Machines that agree on every input in all related states cannot be told apart. -/
theorem outputs_eq_of_agree (R : σ → τ → Prop)
    (hstep : ∀ s t a, R s t → Agree R (step s a) (step' t a)) {s : σ} {t : τ} (h : R s t)
    (inputs : List ι) : outputs step s inputs = outputs step' t inputs := by
  induction inputs generalizing s t with
  | nil => rfl
  | cons a rest ih =>
    have hagree := hstep s t a h
    rw [outputs_cons, outputs_cons]
    cases hs : step s a with
    | none =>
      cases ht : step' t a with
      | none => rfl
      | some out' =>
        rw [hs, ht] at hagree
        exact hagree.elim
    | some out =>
      cases ht : step' t a with
      | none =>
        rw [hs, ht] at hagree
        exact hagree.elim
      | some out' =>
        rw [hs, ht] at hagree
        rw [Option.bind_some, Option.bind_some, hagree.1, ih hagree.2]

/-- The outputs of the inputs that are kept. -/
def kept (keep : ι → Bool) (inputs : List ι) (os : List ο) : List ο :=
  ((inputs.zip os).filter (fun io => keep io.1)).map Prod.snd

/-- If what is not kept leaves the view of a state alone, the rest is answered as if it
had not been there. -/
theorem trace_filter (keep : ι → Bool) (R : σ → σ → Prop)
    (hkeep : ∀ s t a out, keep a = true → R s t → step s a = some out →
      ∃ t', step t a = some (t', out.2) ∧ R out.1 t')
    (hskip : ∀ s t a out, keep a = false → R s t → step s a = some out → R out.1 t)
    {s s' t : σ} (h : R s t) {inputs : List ι} {os : List ο}
    (hrun : trace step s inputs = some (s', os)) :
    ∃ t', trace step t (inputs.filter keep) = some (t', kept keep inputs os) ∧ R s' t' := by
  induction inputs generalizing s t os with
  | nil =>
    cases hrun
    exact ⟨t, rfl, h⟩
  | cons a rest ih =>
    obtain ⟨out, hs, hmap⟩ := Option.bind_eq_some_iff.mp hrun
    obtain ⟨last, hlast, heq⟩ := Option.map_eq_some_iff.mp hmap
    cases heq
    cases ha : keep a with
    | true =>
      obtain ⟨next, hnext, hR⟩ := hkeep s t a out ha h hs
      obtain ⟨t', ht', hR'⟩ := ih hR hlast
      refine ⟨t', ?_, hR'⟩
      rw [List.filter_cons_of_pos ha, trace, hnext, Option.bind_some, ht', Option.map_some]
      simp [kept, ha]
    | false =>
      obtain ⟨t', ht', hR'⟩ := ih (hskip s t a out ha h hs) hlast
      refine ⟨t', ?_, hR'⟩
      rw [List.filter_cons_of_neg (by simp [ha]), ht']
      simp [kept, ha]

end Aesd.Traces
