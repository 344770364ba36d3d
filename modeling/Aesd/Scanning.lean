import Aesd.CString
import Mathlib.Data.List.TakeWhile
import Mathlib.Data.Nat.Digits.Lemmas

/-!
Which texts the C library's scanners accept, and what they make of them. A number written
in decimal is read back, whatever follows it, as long as no digit does.
-/
namespace Aesd.CString

/-- Text that does not continue a number. -/
def EndsNumber (rest : List UInt8) : Prop := ∀ b ∈ rest.head?, isDigit b = false

/-- What `%u` makes of a sign and digits, before it is stored in 32 bits. -/
def longValue (minus : Bool) (digits : List UInt8) : ℤ :=
  if 2 ^ 64 ≤ (decimal digits : ℤ) then 2 ^ 64 - 1
  else if minus then -(decimal digits : ℤ) else decimal digits

/-- The text of a number as `%u` accepts it: blanks, a sign that may be missing, digits. -/
def Numeral (text : List UInt8) (value : ℤ) : Prop :=
  ∃ blanks sign digits, text = blanks ++ sign ++ digits ∧
    (∀ b ∈ blanks, isSpace b = true) ∧ (sign = [] ∨ sign = [43] ∨ sign = [45]) ∧
    digits ≠ [] ∧ (∀ b ∈ digits, isDigit b = true) ∧
    value = longValue (decide (sign = [45])) digits

theorem takeWhile_append_of_head {p : UInt8 → Bool} {xs rest : List UInt8}
    (hxs : ∀ b ∈ xs, p b = true) (hrest : ∀ b ∈ rest.head?, p b = false) :
    (xs ++ rest).takeWhile p = xs ∧ (xs ++ rest).dropWhile p = rest := by
  rw [List.takeWhile_append_of_pos hxs, List.dropWhile_append_of_pos hxs]
  cases rest with
  | nil => simp
  | cons b rest =>
    have hb := hrest b rfl
    simp [hb]

theorem isSpace_eq_false_of_digit {b : UInt8} (h : isDigit b = true) : isSpace b = false := by
  simp only [isDigit, isSpace, Bool.and_eq_true, decide_eq_true_eq, Bool.or_eq_false_iff,
    Bool.and_eq_false_iff, decide_eq_false_iff_not, UInt8.le_iff_toNat_le] at h ⊢
  obtain ⟨hlow, hhigh⟩ := h
  have hlow' : 48 ≤ b.toNat := hlow
  refine ⟨fun hb => by rw [hb] at hlow'; exact absurd hlow' (by decide), Or.inr ?_⟩
  change ¬ b.toNat ≤ 13
  omega

theorem ne_of_digit {b : UInt8} (h : isDigit b = true) : b ≠ 45 ∧ b ≠ 43 := by
  constructor
  · rintro rfl
    cases h
  · rintro rfl
    cases h

/-- Splitting off the sign. -/
theorem scanSign_parts (s : List UInt8) : ∃ sign, s = sign ++ (scanSign s).2 ∧
    (sign = [] ∨ sign = [43] ∨ sign = [45]) ∧ (scanSign s).1 = decide (sign = [45]) := by
  cases s with
  | nil => exact ⟨[], rfl, Or.inl rfl, rfl⟩
  | cons b rest =>
    rw [scanSign]
    split
    · rename_i hminus
      exact ⟨[45], by rw [hminus]; rfl, Or.inr (Or.inr rfl), rfl⟩
    · split
      · rename_i hplus
        exact ⟨[43], by rw [hplus]; rfl, Or.inr (Or.inl rfl), rfl⟩
      · exact ⟨[], rfl, Or.inl rfl, rfl⟩

theorem scanSign_append {sign : List UInt8} (hsign : sign = [] ∨ sign = [43] ∨ sign = [45])
    {b : UInt8} (hb : isDigit b = true) (rest : List UInt8) :
    scanSign (sign ++ b :: rest) = (decide (sign = [45]), b :: rest) := by
  rcases hsign with rfl | rfl | rfl
  · obtain ⟨hminus, hplus⟩ := ne_of_digit hb
    simp [scanSign, hminus, hplus]
  · rfl
  · rfl

/-- The first byte behind the blanks is no blank. -/
theorem head_of_signed {sign : List UInt8} (hsign : sign = [] ∨ sign = [43] ∨ sign = [45])
    {b : UInt8} (hb : isDigit b = true) (rest : List UInt8) :
    ∀ c ∈ (sign ++ b :: rest).head?, isSpace c = false := by
  intro c hc
  rcases hsign with rfl | rfl | rfl
  · cases hc
    exact isSpace_eq_false_of_digit hb
  · cases hc
    decide
  · cases hc
    decide

/-- What `%u` accepts is a number, and it reads it up to its end. -/
theorem scanUnsigned_eq_some_iff (s rest : List UInt8) (value : ℤ) :
    scanUnsigned s = some (value, rest) ↔
      ∃ text, s = text ++ rest ∧ Numeral text value ∧ EndsNumber rest := by
  constructor
  · intro h
    obtain ⟨hdigits, heq⟩ := Option.ite_none_left_eq_some.mp h
    obtain ⟨rfl, rfl⟩ := Prod.mk.inj (Option.some.inj heq)
    obtain ⟨sign, hsplit, hsign, hminus⟩ := scanSign_parts (s.dropWhile isSpace)
    refine ⟨s.takeWhile isSpace ++ sign ++
      (scanSign (s.dropWhile isSpace)).2.takeWhile isDigit, ?_, ?_, ?_⟩
    · rw [List.append_assoc, List.takeWhile_append_dropWhile, List.append_assoc, ← hsplit,
        List.takeWhile_append_dropWhile]
    · refine ⟨_, sign, _, rfl, ?_, hsign, hdigits, ?_, ?_⟩
      · intro b hb
        exact List.mem_takeWhile_imp hb
      · intro b hb
        exact List.mem_takeWhile_imp hb
      · rw [longValue, ← hminus]
    · intro b hb
      have hnot := List.head?_dropWhile_not isDigit (scanSign (s.dropWhile isSpace)).2
      rw [Option.mem_def.mp hb] at hnot
      exact hnot
  · rintro ⟨_, rfl, ⟨blanks, sign, digits, rfl, hblanks, hsign, hne, hdigits, rfl⟩, hrest⟩
    cases digits with
    | nil => exact absurd rfl hne
    | cons b more =>
      have hb := hdigits b List.mem_cons_self
      have hshape : blanks ++ sign ++ b :: more ++ rest =
          blanks ++ (sign ++ b :: (more ++ rest)) := by simp
      have hspace := (takeWhile_append_of_head hblanks (head_of_signed hsign hb (more ++ rest))).2
      obtain ⟨htake, hdrop⟩ := takeWhile_append_of_head hdigits hrest
      rw [List.cons_append] at htake hdrop
      simp only [scanUnsigned, hshape, hspace, scanSign_append hsign hb, htake, hdrop, longValue]
      rw [if_neg (List.cons_ne_nil b more)]

/-- `strstr` finds the first place at which the pattern stands. -/
theorem strstr_eq_some_iff (pattern s found : List UInt8) :
    strstr pattern s = some found ↔ ∃ pre, s = pre ++ found ∧ pattern <+: found ∧
      ∀ i < pre.length, ¬ pattern <+: s.drop i := by
  induction s with
  | nil =>
    constructor
    · intro h
      obtain ⟨rfl, heq⟩ := Option.ite_none_right_eq_some.mp h
      cases heq
      exact ⟨[], rfl, List.nil_prefix, fun i hi => absurd hi (Nat.not_lt_zero i)⟩
    · rintro ⟨pre, hsplit, hprefix, _⟩
      obtain ⟨_, rfl⟩ := List.append_eq_nil_iff.mp hsplit.symm
      rw [strstr, if_pos (List.prefix_nil.mp hprefix)]
  | cons b rest ih =>
    rw [strstr]
    by_cases hhere : pattern.isPrefixOf (b :: rest) = true
    · have hstart := List.isPrefixOf_iff_prefix.mp hhere
      rw [if_pos hhere]
      constructor
      · intro h
        cases h
        exact ⟨[], rfl, hstart, fun i hi => absurd hi (Nat.not_lt_zero i)⟩
      · rintro ⟨pre, hsplit, _, hfirst⟩
        cases pre with
        | nil => rw [hsplit, List.nil_append]
        | cons c pre => exact absurd hstart (hfirst 0 (by simp))
    · have hstart : ¬ pattern <+: b :: rest := fun h => hhere (List.isPrefixOf_iff_prefix.mpr h)
      rw [if_neg hhere, ih]
      constructor
      · rintro ⟨pre, rfl, hprefix, hfirst⟩
        refine ⟨b :: pre, rfl, hprefix, ?_⟩
        intro i hi
        cases i with
        | zero => exact hstart
        | succ i => exact hfirst i (Nat.lt_of_succ_lt_succ hi)
      · rintro ⟨pre, hsplit, hprefix, hfirst⟩
        cases pre with
        | nil =>
          rw [List.nil_append] at hsplit
          exact absurd (hsplit ▸ hprefix) hstart
        | cons c pre =>
          obtain ⟨rfl, rfl⟩ := List.cons.inj hsplit
          exact ⟨pre, rfl, hprefix, fun i hi => hfirst (i + 1) (Nat.succ_lt_succ hi)⟩

/-- A number as `%u` prints it. -/
def printUnsigned (n : ℕ) : List UInt8 :=
  if n = 0 then [48] else (Nat.digits 10 n).reverse.map (fun d => UInt8.ofNat (d + 48))

theorem decimal_append (xs ys : List UInt8) :
    decimal (xs ++ ys) = ys.foldl (fun n b => 10 * n + (b.toNat - 48)) (decimal xs) := by
  rw [decimal, List.foldl_append]
  rfl

theorem toNat_digit {d : ℕ} (h : d < 10) : (UInt8.ofNat (d + 48)).toNat = d + 48 := by
  rw [UInt8.toNat_ofNat']
  omega

theorem decimal_digits (ds : List ℕ) (h : ∀ d ∈ ds, d < 10) :
    decimal (ds.reverse.map (fun d => UInt8.ofNat (d + 48))) = Nat.ofDigits 10 ds := by
  induction ds with
  | nil => rfl
  | cons d ds ih =>
    rw [List.reverse_cons, List.map_append, decimal_append,
      ih (fun e he => h e (List.mem_cons_of_mem d he)), Nat.ofDigits_cons]
    simp only [List.map_cons, List.map_nil, List.foldl_cons, List.foldl_nil]
    rw [toNat_digit (h d List.mem_cons_self)]
    omega

theorem isDigit_ofNat {d : ℕ} (h : d < 10) : isDigit (UInt8.ofNat (d + 48)) = true := by
  have hvalue := toNat_digit h
  simp only [isDigit, Bool.and_eq_true, decide_eq_true_eq, UInt8.le_iff_toNat_le]
  rw [hvalue]
  constructor
  · change 48 ≤ d + 48
    omega
  · change d + 48 ≤ 57
    omega

/-- What is printed is a number, and its value is the one printed. -/
theorem numeral_print (n : ℕ) (h : n < 2 ^ 64) : Numeral (printUnsigned n) n := by
  have hvalue : ∀ digits, decimal digits = n → longValue false digits = n := by
    intro digits hn
    rw [longValue, hn, if_neg (by omega)]
    rfl
  unfold printUnsigned
  split
  · rename_i hzero
    subst hzero
    refine ⟨[], [], [48], rfl, by simp, Or.inl rfl, by simp, ?_, (hvalue [48] rfl).symm⟩
    intro b hb
    rw [List.mem_singleton.mp hb]
    rfl
  · rename_i hpos
    have hlt : ∀ d ∈ Nat.digits 10 n, d < 10 := fun d hd => Nat.digits_lt_base (by decide) hd
    refine ⟨[], [], _, rfl, by simp, Or.inl rfl, ?_, ?_, ?_⟩
    · simpa [Nat.digits_eq_nil_iff_eq_zero] using hpos
    · intro b hb
      obtain ⟨d, hd, rfl⟩ := List.mem_map.mp hb
      exact isDigit_ofNat (hlt d (List.mem_reverse.mp hd))
    · rw [show decide (([] : List UInt8) = [45]) = false from rfl, hvalue]
      rw [decimal_digits _ hlt, Nat.ofDigits_digits]

end Aesd.CString
