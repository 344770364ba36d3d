import Aesd.PacketReceive
import Aesd.Scanning

/-!
The text of a seek request. The buffer holds a request exactly if the keyword, where it
stands first, is followed by two numbers with a comma between them; and a request
that a client prints is read back with the numbers the client means.
-/
namespace Aesd.Server

open Driver CString

/-- Two numbers with a comma between them; `rest` is what `sscanf` leaves. -/
def TwoNumbers (text : List UInt8) (seekto : Seekto) : Prop :=
  ∃ first second rest x y, text = first ++ 44 :: (second ++ rest) ∧ Numeral first x ∧
    Numeral second y ∧ EndsNumber rest ∧ seekto.writeCmd = uint32 x ∧
    seekto.writeCmdOffset = uint32 y

theorem scanSeekto_eq_some_iff (text : List UInt8) (seekto : Seekto) :
    scanSeekto text = some seekto ↔ TwoNumbers (text.drop pattern.length) seekto := by
  have hcomma : ∀ tail : List UInt8, EndsNumber (44 :: tail) := by
    intro tail b hb
    cases hb
    decide
  constructor
  · intro h
    obtain ⟨⟨x, tail⟩, hfirst, h⟩ := Option.bind_eq_some_iff.mp h
    obtain ⟨first, htext, hx, _⟩ := (scanUnsigned_eq_some_iff _ _ _).mp hfirst
    cases tail with
    | nil => cases h
    | cons b tail =>
      obtain ⟨hb, h⟩ := Option.ite_none_right_eq_some.mp h
      obtain ⟨⟨y, rest⟩, hsecond, rfl⟩ := Option.map_eq_some_iff.mp h
      obtain ⟨second, rfl, hy, hends⟩ := (scanUnsigned_eq_some_iff _ _ _).mp hsecond
      exact ⟨first, second, rest, x, y, by rw [htext, hb], hx, hy, hends, rfl, rfl⟩
  · rintro ⟨first, second, rest, x, y, htext, hx, hy, hends, hcmd, hoff⟩
    have hfirst : scanUnsigned (text.drop pattern.length) = some (x, 44 :: (second ++ rest)) :=
      (scanUnsigned_eq_some_iff _ _ _).mpr ⟨first, htext, hx, hcomma _⟩
    have hsecond : scanUnsigned (second ++ rest) = some (y, rest) :=
      (scanUnsigned_eq_some_iff _ _ _).mpr ⟨second, rfl, hy, hends⟩
    obtain ⟨cmd, off, hcmdlt, hofflt⟩ := seekto
    subst hcmd hoff
    rw [scanSeekto, hfirst, Option.bind_some]
    simp only [if_true, hsecond, Option.map_some]

/-- Only the first keyword in the string counts. -/
theorem Buffer.seekto_of_string {buffer : Buffer} {seekto : Seekto} {pre text : List UInt8}
    (hsplit : ofBuffer buffer.bytes = pre ++ pattern ++ text)
    (hfirst : ∀ i < pre.length, ¬ pattern <+: (ofBuffer buffer.bytes).drop i)
    (htwo : TwoNumbers text seekto) : buffer.seekto = some seekto := by
  rw [Buffer.seekto, Option.bind_eq_some_iff]
  refine ⟨pattern ++ text, (strstr_eq_some_iff _ _ _).mpr ⟨pre, ?_, ⟨text, rfl⟩, hfirst⟩, ?_⟩
  · rw [hsplit, List.append_assoc]
  · rw [scanSeekto_eq_some_iff, List.drop_left]
    exact htwo

/-- The requests that `handle_client` takes out of its buffer, in every form that `strstr` and
`sscanf` accept: only the first keyword in the string counts, the numbers may have
blanks and a sign before them, and they are cut to 32 bits. -/
theorem Buffer.seekto_eq_some_iff (buffer : Buffer) (seekto : Seekto) :
    buffer.seekto = some seekto ↔
      ∃ pre text, ofBuffer buffer.bytes = pre ++ pattern ++ text ∧
        (∀ i < pre.length, ¬ pattern <+: (ofBuffer buffer.bytes).drop i) ∧
        TwoNumbers text seekto := by
  constructor
  · intro h
    obtain ⟨found, hfound, hscan⟩ := Option.bind_eq_some_iff.mp h
    obtain ⟨pre, hsplit, ⟨text, rfl⟩, hfirst⟩ := (strstr_eq_some_iff _ _ _).mp hfound
    rw [scanSeekto_eq_some_iff, List.drop_left] at hscan
    exact ⟨pre, text, by rw [hsplit, List.append_assoc], hfirst, hscan⟩
  · rintro ⟨pre, text, hsplit, hfirst, htwo⟩
    exact Buffer.seekto_of_string hsplit hfirst htwo

/-- The request as a client prints it. -/
def requestText (seekto : Seekto) : List UInt8 :=
  pattern ++ (printUnsigned seekto.writeCmd ++ 44 :: printUnsigned seekto.writeCmdOffset)

theorem twoNumbers_print (seekto : Seekto) {rest : List UInt8} (hrest : EndsNumber rest) :
    TwoNumbers (printUnsigned seekto.writeCmd ++ 44 ::
      (printUnsigned seekto.writeCmdOffset ++ rest)) seekto := by
  have hcmd := seekto.writeCmd_lt
  have hoff := seekto.writeCmdOffset_lt
  exact ⟨_, _, rest, _, _, rfl, numeral_print _ (by omega), numeral_print _ (by omega), hrest,
    (uint32_of_lt _ hcmd).symm, (uint32_of_lt _ hoff).symm⟩

theorem ofBuffer_append_of_nonzero {text : List UInt8} (h : (0 : UInt8) ∉ text)
    (rest : List UInt8) : ofBuffer (text ++ rest) = text ++ ofBuffer rest := by
  apply List.takeWhile_append_of_pos
  intro b hb
  rw [decide_eq_true_eq]
  rintro rfl
  exact h hb

/-- What ends a number still does when the string ends at a zero byte. -/
theorem endsNumber_ofBuffer {rest : List UInt8} (h : EndsNumber rest) :
    EndsNumber (ofBuffer rest) := by
  intro b hb
  cases rest with
  | nil => cases hb
  | cons c rest =>
    unfold CString.ofBuffer at hb
    rw [List.takeWhile_cons] at hb
    split at hb
    · exact h b hb
    · cases hb

theorem zero_notMem_print (n : ℕ) (h : n < 2 ^ 64) : (0 : UInt8) ∉ printUnsigned n := by
  intro hmem
  obtain ⟨blanks, sign, digits, heq, hblanks, hsign, _, hdigits, _⟩ := numeral_print n h
  rw [heq, List.mem_append, List.mem_append] at hmem
  rcases hmem with (hblank | hsigned) | hdigit
  · exact absurd (hblanks 0 hblank) (by decide)
  · rcases hsign with rfl | rfl | rfl
    · cases hsigned
    · exact absurd hsigned (by decide)
    · exact absurd hsigned (by decide)
  · exact absurd (hdigits 0 hdigit) (by decide)

theorem zero_notMem_request (seekto : Seekto) : (0 : UInt8) ∉ requestText seekto := by
  have hcmd := seekto.writeCmd_lt
  have hoff := seekto.writeCmdOffset_lt
  simp only [requestText, List.mem_append, List.mem_cons]
  rintro (hkey | hfirst | hcomma | hsecond)
  · exact absurd hkey (by decide)
  · exact zero_notMem_print _ (by omega) hfirst
  · cases hcomma
  · exact zero_notMem_print _ (by omega) hsecond

theorem ofBuffer_request {seekto : Seekto} {before after : List UInt8} {chunk : Chunk}
    (hchunk : chunk.bytes = before ++ requestText seekto ++ after)
    (hzero : (0 : UInt8) ∉ before) :
    ofBuffer (Buffer.zeros.receive chunk).bytes =
      before ++ requestText seekto ++ ofBuffer after := by
  rw [Buffer.receive_zeros, ofBuffer_append_zeros, hchunk, ofBuffer_append_of_nonzero]
  rw [List.mem_append]
  exact not_or.mpr ⟨hzero, zero_notMem_request seekto⟩

theorem Buffer.seekto_of_request {buffer : Buffer} {seekto : Seekto} {before rest : List UInt8}
    (hstring : ofBuffer buffer.bytes = before ++ requestText seekto ++ rest)
    (hfirst : ∀ i < before.length, ¬ pattern <+: (ofBuffer buffer.bytes).drop i)
    (hrest : EndsNumber rest) : buffer.seekto = some seekto := by
  refine Buffer.seekto_of_string ?_ hfirst (twoNumbers_print seekto hrest)
  rw [hstring]
  simp [requestText]

/-- A printed request is read back, whatever text stands before it, if that text has no
keyword and does not end the string, and whatever follows that is no digit. The string in
the buffer is a beginning of what was received, so it has no earlier keyword either. -/
theorem request_read_back (seekto : Seekto) (before after : List UInt8) (chunk : Chunk)
    (hchunk : chunk.bytes = before ++ requestText seekto ++ after)
    (hzero : (0 : UInt8) ∉ before)
    (hfirst : ∀ i < before.length, ¬ pattern <+: chunk.bytes.drop i)
    (hafter : EndsNumber after) : (Buffer.zeros.receive chunk).seekto = some seekto := by
  have hstring := ofBuffer_request hchunk hzero
  refine Buffer.seekto_of_request hstring ?_ (endsNumber_ofBuffer hafter)
  intro i hi hkey
  apply hfirst i hi
  rw [hchunk, List.drop_append_of_le_length (by rw [List.length_append]; omega)]
  rw [hstring, List.drop_append_of_le_length (by rw [List.length_append]; omega)] at hkey
  exact hkey.trans ((List.prefix_append_right_inj _).mpr (List.takeWhile_prefix _))

theorem request_read_back_sample :
    (Buffer.zeros.receive ⟨[97, 32] ++ requestText ⟨2, 4294967295, by decide, by decide⟩ ++
      [newline], by decide, by decide⟩).seekto =
        some ⟨2, 4294967295, by decide, by decide⟩ :=
  request_read_back _ [97, 32] [newline] _ rfl (by decide) (by decide) (by
    intro b hb
    cases hb
    decide)

end Aesd.Server
