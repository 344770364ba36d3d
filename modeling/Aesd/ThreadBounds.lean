import Aesd.Runs
import Aesd.ThreadBuffer

/-!
The bounds of the receive loop over whole runs: every access is inside the buffer, unless the
stream ends before its first byte.
-/
namespace Aesd.ThreadFunc

open Receiver

/-- The number of bytes received in a sequence of turns. -/
def totalSize (answers : List Answer) : ℕ := (answers.map Answer.size).sum

theorem totalSize_concat (answers : List Answer) (a : Answer) :
    totalSize (answers ++ [a]) = totalSize answers + a.size := by
  simp [totalSize]

theorem totalSize_le (done rest : List Answer) : totalSize done ≤ totalSize (done ++ rest) := by
  simp [totalSize]

/-- What holds after every sequence of turns. -/
theorem fits_of_run (answers : List Answer) (htotal : totalSize answers < 2 ^ 29) (t : Receiver)
    (hrun : Runs.run step start answers = some t) :
    t.Fits (totalSize answers) initBufferSize ∧
      (t.isCompleted = false → t.totalLen = totalSize answers) := by
  induction answers using List.reverseRecOn generalizing t with
  | nil =>
    cases Option.some.inj hrun
    exact ⟨fits_start, fun _ => rfl⟩
  | append_singleton answers a ih =>
    rw [totalSize_concat] at htotal ⊢
    obtain ⟨u, hu, hlast⟩ := (Runs.run_concat_eq_some answers a).mp hrun
    obtain ⟨hopen, hturn⟩ := Option.ite_none_left_eq_some.mp hlast
    cases Option.some.inj hturn
    obtain ⟨hfits, hcount⟩ := ih (by omega) u hu
    refine ⟨hfits.turn a htotal, ?_⟩
    intro hgoes
    rw [hfits.turn_totalLen a htotal hgoes, hcount (Bool.eq_false_iff.mpr hopen)]
    rfl

/-- The first result that is no error brings data: the stream does not end before its
first byte. -/
def StartsWithData (answers : List Answer) : Prop :=
  ∀ done a rest piece, answers = done ++ a :: rest → (∀ b ∈ done, b.received = none) →
    a.received = some piece → piece.bytes ≠ []

/-- After errors alone the loop is where it was. -/
theorem run_of_errors (answers : List Answer) (h : ∀ a ∈ answers, a.received = none) :
    Runs.run step start answers = some start := by
  induction answers with
  | nil => rfl
  | cons a rest ih =>
    have hturn : start.turn a = start := by
      rw [Receiver.turn, h a List.mem_cons_self]
    rw [Runs.run, step, if_neg (by decide), hturn, Option.bind_some]
    exact ih (fun b hb => h b (List.mem_cons_of_mem a hb))

/-- Where the stream starts with data, only errors bring nothing. -/
theorem StartsWithData.errors {answers : List Answer} (h : StartsWithData answers)
    (done rest : List Answer) (hsplit : answers = done ++ rest) (hzero : totalSize done = 0) :
    ∀ b ∈ done, b.received = none := by
  induction done using List.reverseRecOn generalizing rest with
  | nil => simp
  | append_singleton done a ih =>
    rw [totalSize_concat] at hzero
    rw [List.append_assoc] at hsplit
    have hdone := ih ([a] ++ rest) hsplit (by omega)
    intro b hb
    rcases List.mem_append.mp hb with hold | hnew
    · exact hdone b hold
    · cases List.mem_singleton.mp hnew
      cases ha : a.received with
      | none => rfl
      | some piece =>
        have hne := h done a rest piece hsplit hdone ha
        have hsize : a.size = piece.bytes.length := by rw [Answer.size, ha]; rfl
        have hpos := List.length_pos_iff.mpr hne
        omega

/-- For every sequence of results below 2^29 bytes: there is always room for the next
100 bytes and no access leaves the buffer, if and only if the stream does not end before
its first byte. -/
theorem in_bounds_iff (answers : List Answer) (htotal : totalSize answers < 2 ^ 29) :
    Runs.Meets step InBounds start answers ↔ StartsWithData answers := by
  constructor
  · intro hmeets done a rest piece hsplit herrors ha
    obtain ⟨_, hinside⟩ := hmeets done a rest start hsplit (run_of_errors done herrors) rfl
    have hsmall : 0 + a.size < 2 ^ 29 := by
      have hle := totalSize_le (done ++ [a]) rest
      rw [List.append_assoc, List.singleton_append, ← hsplit, totalSize_concat] at hle
      omega
    have hpos := (fits_start.accesses_inside_iff a hsmall).mp hinside piece ha
    intro hnil
    rw [hnil] at hpos
    exact absurd hpos (lt_irrefl 0)
  · intro hdata done a rest u hsplit hu hopen
    have hle := totalSize_le (done ++ [a]) rest
    rw [List.append_assoc, List.singleton_append, ← hsplit, totalSize_concat] at hle
    obtain ⟨hfits, hcount⟩ := fits_of_run done (by omega) u hu
    refine ⟨⟨hfits.length_eq, hfits.room_le⟩, ?_⟩
    rw [hfits.accesses_inside_iff a (by omega), hcount hopen]
    intro piece ha
    by_cases hzero : totalSize done = 0
    · have hne := hdata done a rest piece hsplit
        (hdata.errors done (a :: rest) hsplit hzero) ha
      have hpos := List.length_pos_iff.mpr hne
      omega
    · omega

/-- An error, then a line in two parts: both indices are inside the buffer. -/
theorem in_bounds_sample :
    Runs.Meets step InBounds start
      [⟨none, 0, [], fun _ => 0⟩, ⟨some ⟨[97, 98], by decide⟩, 0, [], fun _ => 0⟩,
        ⟨some ⟨[10], by decide⟩, 0, [99, 10], fun _ => 0⟩] := by
  rw [in_bounds_iff _ (by decide)]
  intro done a rest piece hsplit herrors ha
  rcases done with _ | ⟨first, _ | ⟨second, more⟩⟩
  · obtain ⟨rfl, _⟩ := List.cons.inj hsplit
    cases ha
  · obtain ⟨_, hsplit⟩ := List.cons.inj hsplit
    obtain ⟨rfl, _⟩ := List.cons.inj hsplit
    cases ha
    simp
  · obtain ⟨_, hsplit⟩ := List.cons.inj hsplit
    obtain ⟨rfl, _⟩ := List.cons.inj hsplit
    cases herrors _ (List.mem_cons_of_mem _ List.mem_cons_self)

/-- The client closes before it has sent anything: the loop looks at `buffer[-1]`. -/
theorem end_before_first_byte :
    totalSize [⟨some ⟨[], by decide⟩, 0, [], fun _ => 0⟩] < 2 ^ 29 ∧
      ¬ Runs.Meets step InBounds start [⟨some ⟨[], by decide⟩, 0, [], fun _ => 0⟩] := by
  refine ⟨by decide, ?_⟩
  intro hmeets
  obtain ⟨_, hinside⟩ := hmeets [] _ [] start rfl rfl rfl
  have hback : (⟨-1, 1, 100⟩ : Access).Inside := by
    apply hinside
    simp only [accesses, List.mem_cons]
    exact Or.inr (Or.inl rfl)
  exact absurd hback (by decide)

end Aesd.ThreadFunc
