import Aesd.Words
import Mathlib.Data.List.Infix

/-!
Byte strings as the C library reads them: the string in a buffer ends before
its first zero byte, `strstr` returns the text from the first occurrence on,
and the `%u` conversion reads an optional sign and decimal digits.
-/
namespace Aesd.CString

/-- The string that starts at the beginning of a buffer. -/
def ofBuffer (buffer : List UInt8) : List UInt8 := buffer.takeWhile (fun b => decide (b ≠ 0))

def strstr (pattern : List UInt8) : List UInt8 → Option (List UInt8)
  | [] => if pattern = [] then some [] else none
  | b :: rest => if pattern.isPrefixOf (b :: rest) then some (b :: rest) else strstr pattern rest

def isSpace (b : UInt8) : Bool := b = 32 || (9 ≤ b && b ≤ 13)

def isDigit (b : UInt8) : Bool := 48 ≤ b && b ≤ 57

/-- An optional sign, and whether it is a minus. -/
def scanSign : List UInt8 → Bool × List UInt8
  | [] => (false, [])
  | b :: rest => if b = 45 then (true, rest) else if b = 43 then (false, rest)
      else (false, b :: rest)

def decimal (digits : List UInt8) : ℕ :=
  digits.foldl (fun n b => 10 * n + (b.toNat - 48)) 0

/-- `%u`: the digits are read as by `strtoul`, which stops at the largest 64-bit
value; the caller stores the result in 32 bits. -/
def scanUnsigned (s : List UInt8) : Option (ℤ × List UInt8) :=
  let signed := scanSign (s.dropWhile isSpace)
  let digits := signed.2.takeWhile isDigit
  if digits = [] then none
  else
    let value : ℤ := decimal digits
    let long := if 2 ^ 64 ≤ value then 2 ^ 64 - 1 else if signed.1 then -value else value
    some (long, signed.2.dropWhile isDigit)

/-- A text that does not contain the pattern has no match. -/
theorem strstr_eq_none (pattern s : List UInt8) (h : ¬ pattern <:+: s) :
    strstr pattern s = none := by
  induction s with
  | nil =>
    apply if_neg
    intro hnil
    exact h (hnil ▸ List.infix_rfl)
  | cons b rest ih =>
    rw [strstr, if_neg, ih]
    · intro hrest
      exact h (hrest.trans (List.suffix_cons b rest).isInfix)
    · intro hmatch
      exact h (List.isPrefixOf_iff_prefix.mp hmatch).isInfix

theorem ofBuffer_infix (buffer : List UInt8) : ofBuffer buffer <:+: buffer :=
  (List.takeWhile_prefix _).isInfix

/-- Zero bytes behind a text do not change the string. -/
theorem ofBuffer_append_zeros (text : List UInt8) (n : ℕ) :
    ofBuffer (text ++ List.replicate n 0) = ofBuffer text := by
  unfold ofBuffer
  rw [List.takeWhile_append]
  split
  · rename_i hall
    have hzeros : (List.replicate n (0 : UInt8)).takeWhile (fun b => decide (b ≠ 0)) = [] := by
      cases n with
      | zero => rfl
      | succ n => simp [List.replicate_succ]
    rw [hzeros, List.append_nil]
    exact ((List.takeWhile_prefix _).eq_of_length hall).symm
  · rfl

end Aesd.CString
