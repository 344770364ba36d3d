import Aesd.OpenFiles

/-!
A file that is only read, while others write, read and seek between its reads. What the
reads that succeed bring are bytes of the commands in their order, none of them twice.
Until a command is evicted nothing is missing either; from then on the file is further
into the content than it has read, by the bytes that are gone. A read with a fault leaves
the file where it is, and what it has copied does not count.
-/
namespace Aesd.Driver

open Traces

/-- Nothing but reads goes through file `i`. -/
def Request.OnlyReads (i : ℕ) : Request → Prop
  | .openFile _ => True
  | .release j => j ≠ i
  | .call j c => j = i → ∃ count uncopied, c = .read count uncopied

/-- What a reply brings to file `i`, unless the call has failed. -/
def Request.brings (i : ℕ) : Request → Reply → List UInt8
  | .call j _, reply => if j = i ∧ 0 ≤ reply.retval then reply.data else []
  | .openFile _, _ => []
  | .release _, _ => []

/-- What the replies have brought to file `i`. -/
def readBy (i : ℕ) (requests : List Request) (replies : List Reply) : List UInt8 :=
  (List.zipWith (Request.brings i) requests replies).flatten

/-- The bytes of the commands that are gone. -/
def Memory.evicted (m : Memory) : List UInt8 := (m.closed.take (m.closed.length - 10)).flatten

theorem Memory.evicted_append (m : Memory) :
    m.evicted ++ (m.closed.rtake 10).flatten = m.closed.flatten := by
  rw [Memory.evicted, List.rtake, ← List.flatten_append, List.take_append_drop]

/-- A read without a fault delivers what stands at its position. -/
theorem Memory.read_data (m : Memory) (p count : ℕ) :
    (m.read p count 0).data = dataAt (m.closed.rtake 10) p count := by
  unfold Memory.read dataAt
  cases CircularBuffer.walk (sizeT p) 0 ((m.closed.rtake 10).map List.length) with
  | none => rfl
  | some found =>
    simp only [ne_eq, not_true_eq_false, if_false]
    rw [List.take_eq_take_iff, List.length_drop]
    omega

/-- It moves the position behind what it delivers. -/
theorem Memory.read_fPos (m : Memory) (p count : ℕ)
    (hp : p + (m.read p count 0).data.length < 2 ^ 63) :
    (m.read p count 0).fPos = (p + (m.read p count 0).data.length : ℕ) := by
  unfold Memory.read at hp ⊢
  cases hwalk : CircularBuffer.walk (sizeT p) 0 ((m.closed.rtake 10).map List.length) with
  | none => simp
  | some found =>
    obtain ⟨j, off⟩ := found
    rw [hwalk] at hp
    simp only [ne_eq, not_true_eq_false, if_false, List.length_take, List.length_drop,
      Nat.min_eq_left (Nat.min_le_right _ _)] at hp ⊢
    rw [loffT_of_range _ (by omega) (by omega)]
    push_cast
    rfl

theorem Memory.read_retval (m : Memory) (p count : ℕ)
    (hp : (m.read p count 0).data.length < 2 ^ 63) : 0 ≤ (m.read p count 0).retval := by
  unfold Memory.read at hp ⊢
  cases hwalk : CircularBuffer.walk (sizeT p) 0 ((m.closed.rtake 10).map List.length) with
  | none => simp
  | some found =>
    obtain ⟨j, off⟩ := found
    rw [hwalk] at hp
    simp only [ne_eq, not_true_eq_false, if_false, List.length_take, List.length_drop,
      Nat.min_eq_left (Nat.min_le_right _ _)] at hp ⊢
    rw [loffT_of_range _ (by omega) (by omega)]
    omega

/-- A read with a fault fails and leaves the position, or there was nothing to copy. -/
theorem Memory.read_fault (m : Memory) (pos : ℤ) (count uncopied : ℕ) :
    m.read pos count uncopied = m.read pos count 0 ∨
      (m.read pos count uncopied).retval = -EFAULT ∧
        (m.read pos count uncopied).fPos = pos := by
  unfold Memory.read
  cases CircularBuffer.walk (sizeT pos) 0 ((m.closed.rtake 10).map List.length) with
  | none => exact Or.inl rfl
  | some found =>
    by_cases hfault : uncopied = 0
    · rw [hfault]
      exact Or.inl rfl
    · simp only [ne_eq, hfault, not_false_eq_true, if_true]
      exact Or.inr ⟨trivial, trivial⟩

theorem small_rtake (cmds : List (List UInt8)) (h : ∀ cmd ∈ cmds, cmd.length ≤ 65536) :
    Small (cmds.rtake 10) := by
  apply small_of_le
  · rw [List.rtake, List.length_drop]
    omega
  · exact fun cmd hcmd => h cmd (List.mem_of_mem_drop hcmd)

/-- Commands stay where they are in the history. -/
theorem Memory.exec_closed {m m' : Memory} {pos pos' : ℤ} {call : FileCall} {reply : Reply}
    (h : m.exec pos call = some (m', pos', reply)) : m.closed <+: m'.closed := by
  cases call with
  | read count uncopied =>
    cases h
    exact List.prefix_rfl
  | llseek off whence =>
    cases h
    exact List.prefix_rfl
  | ioctl cmd arg interrupted =>
    cases h
    exact List.prefix_rfl
  | write call =>
    obtain ⟨out, hout, heq⟩ := Option.map_eq_some_iff.mp h
    cases heq
    unfold Memory.write at hout
    cases hpending : m.pending with
    | none =>
      rw [hpending] at hout
      obtain ⟨errno, _, hout⟩ := Option.bind_eq_some_iff.mp hout
      split at hout
      · cases hout
      · cases hout
        exact List.prefix_rfl
    | some pending =>
      rw [hpending] at hout
      cases hrefusal : call.refusal with
      | some errno =>
        rw [hrefusal] at hout
        cases hout
        exact List.prefix_rfl
      | none =>
        rw [hrefusal] at hout
        simp only at hout
        split at hout
        · cases hout
        · split at hout
          · cases hout
            split
            · exact List.prefix_rfl
            · exact List.prefix_rfl
          · cases hout
            exact CommandLog.closed_kept ⟨m.closed, pending⟩ [call.payload.getD []]

theorem Files.step_closed {s s' : Files Memory} {r : Request} {reply : Reply}
    (h : s.step Memory.exec r = some (s', reply)) : s.device.closed <+: s'.device.closed := by
  cases r with
  | openFile j =>
    simp only [Files.step] at h
    split at h
    · cases h
      exact List.prefix_rfl
    · cases h
  | release j =>
    simp only [Files.step] at h
    split at h
    · cases h
    · cases h
      exact List.prefix_rfl
  | call j call =>
    obtain ⟨pos, _, h⟩ := Option.bind_eq_some_iff.mp h
    obtain ⟨out, hexec, heq⟩ := Option.map_eq_some_iff.mp h
    cases heq
    exact Memory.exec_closed hexec

theorem Files.trace_closed {s s' : Files Memory} {requests : List Request}
    {replies : List Reply}
    (h : trace (Files.step Memory.exec) s requests = some (s', replies)) :
    s.device.closed <+: s'.device.closed := by
  induction requests generalizing s replies with
  | nil =>
    cases h
    exact List.prefix_rfl
  | cons r rest ih =>
    obtain ⟨out, hstep, hmap⟩ := Option.bind_eq_some_iff.mp h
    obtain ⟨last, hlast, heq⟩ := Option.map_eq_some_iff.mp hmap
    cases heq
    exact (Files.step_closed hstep).trans (ih hlast)

/-- A file that has read `delivered`: it stands as far in the content as it has read, and
misses at most as many bytes as are gone. -/
structure Reading (i : ℕ) (s : Files Memory) (delivered : List UInt8) : Prop where
  position : s.fPos i = some (delivered.length : ℤ) ∨ s.fPos i = none ∧ delivered = []
  inOrder : delivered.Sublist
    (s.device.closed.flatten.take (s.device.evicted.length + delivered.length))

theorem Memory.evicted_length_le {m m' : Memory} (h : m.closed <+: m'.closed) :
    m.evicted.length ≤ m'.evicted.length := by
  obtain ⟨later, hlater⟩ := h
  have htake : m.closed.take (m.closed.length - 10) <+:
      m'.closed.take (m'.closed.length - 10) := by
    rw [← hlater, List.prefix_take_iff]
    refine ⟨(List.take_prefix _ _).trans (List.prefix_append _ _), ?_⟩
    rw [List.length_take, List.length_append]
    omega
  exact (htake.flatten).length_le

namespace Reading

variable {i : ℕ} {s s' : Files Memory} {delivered : List UInt8}

theorem init : Reading i ⟨.init, fun _ => none⟩ [] :=
  ⟨Or.inr ⟨rfl, rfl⟩, List.nil_sublist _⟩

/-- Later commands change nothing for a file that stays where it is. -/
theorem later (h : Reading i s delivered) (hclosed : s.device.closed <+: s'.device.closed)
    (hpos : s'.fPos i = s.fPos i) : Reading i s' delivered := by
  refine ⟨by rw [hpos]; exact h.position, h.inOrder.trans ?_⟩
  have hevicted := Memory.evicted_length_le hclosed
  have htake : s.device.closed.flatten.take (s.device.evicted.length + delivered.length) <+:
      s'.device.closed.flatten.take (s'.device.evicted.length + delivered.length) := by
    rw [List.prefix_take_iff]
    refine ⟨(List.take_prefix _ _).trans hclosed.flatten, ?_⟩
    rw [List.length_take]
    omega
  exact htake.sublist

/-- A read brings the bytes that follow in what is left of the commands. -/
theorem read (h : Reading i s delivered) (hsmall : Small (s.device.closed.rtake 10))
    (hlength : s.device.closed.flatten.length < 2 ^ 63) (count : ℕ) :
    let r := s.device.read delivered.length count 0
    0 ≤ r.retval ∧
      Reading i ⟨s.device, Function.update s.fPos i (some r.fPos)⟩ (delivered ++ r.data) := by
  intro r
  have hdelivered : delivered.length ≤ s.device.closed.flatten.length :=
    (h.inOrder.trans (List.take_sublist _ _)).length_le
  have hall := s.device.evicted_append
  have hdata : r.data <+: (s.device.closed.rtake 10).flatten.drop delivered.length := by
    rw [Memory.read_data]
    rcases Nat.eq_zero_or_pos count with hzero | hpos
    · have hle := dataAt_length_le (s.device.closed.rtake 10) delivered.length count
      rw [hzero, Nat.le_zero, List.length_eq_zero_iff] at hle
      rw [hzero, hle]
      exact List.nil_prefix
    · exact (hsmall.dataAt _ count (by omega) hpos).1
  have hfits : delivered.length + r.data.length < 2 ^ 63 := by
    have hle := hdata.length_le
    have hsum := congrArg List.length hall
    rw [List.length_drop] at hle
    rw [List.length_append] at hsum
    omega
  refine ⟨s.device.read_retval _ _ (show r.data.length < 2 ^ 63 by omega), Or.inl ?_, ?_⟩
  · simp only [Function.update_self]
    rw [List.length_append, s.device.read_fPos _ _ hfits]
  · rw [List.length_append, ← Nat.add_assoc, List.take_add]
    apply h.inOrder.append
    have hdrop : s.device.closed.flatten.drop (s.device.evicted.length + delivered.length) =
        (s.device.closed.rtake 10).flatten.drop delivered.length := by
      rw [← hall, ← List.drop_drop, List.drop_left]
    rw [hdrop, ← List.prefix_iff_eq_take.mp hdata]

theorem step (h : Reading i s delivered) {r : Request} (honly : r.OnlyReads i) {reply : Reply}
    (hstep : s.step Memory.exec r = some (s', reply))
    (hsmall : Small (s.device.closed.rtake 10))
    (hlength : s.device.closed.flatten.length < 2 ^ 63) :
    Reading i s' (delivered ++ r.brings i reply) := by
  have hclosed := Files.step_closed hstep
  cases r with
  | openFile j =>
    simp only [Files.step] at hstep
    split at hstep
    · rename_i hnone
      cases hstep
      rw [Request.brings, List.append_nil]
      by_cases hj : j = i
      · obtain ⟨hpos, hnil⟩ := h.position.resolve_left (by rw [← hj, hnone]; simp)
        refine ⟨Or.inl ?_, h.inOrder⟩
        simp only [hnil, hj, Function.update_self]
        rfl
      · exact h.later hclosed (Function.update_of_ne (Ne.symm hj) _ _)
    · cases hstep
  | release j =>
    simp only [Files.step] at hstep
    split at hstep
    · cases hstep
    · cases hstep
      rw [Request.brings, List.append_nil]
      exact h.later hclosed (Function.update_of_ne (Ne.symm honly) _ _)
  | call j call =>
    obtain ⟨pos, hpos, hstep⟩ := Option.bind_eq_some_iff.mp hstep
    obtain ⟨out, hexec, heq⟩ := Option.map_eq_some_iff.mp hstep
    cases heq
    by_cases hj : j = i
    · obtain ⟨count, uncopied, rfl⟩ := honly hj
      rw [hj] at hpos
      have hopen := h.position.resolve_right (by rw [hpos]; simp)
      cases Option.some.inj (hpos.symm.trans hopen)
      cases hexec
      rw [hj]
      rcases s.device.read_fault delivered.length count uncopied with hread | ⟨hretval, hpos⟩
      · obtain ⟨hretval, hnext⟩ := h.read hsmall hlength count
        simp only [Request.brings, hread]
        rw [if_pos ⟨trivial, hretval⟩]
        exact hnext
      · simp only [Request.brings, hretval, hpos]
        rw [if_neg (by decide), List.append_nil]
        exact h.later hclosed ((Function.update_self ..).trans hopen.symm)
    · rw [Request.brings, if_neg (fun hi => hj hi.1), List.append_nil]
      exact h.later hclosed (Function.update_of_ne (Ne.symm hj) _ _)

/-- The whole run; the sizes are those of the commands at its end. -/
theorem run (h : Reading i s delivered) {requests : List Request}
    (honly : ∀ r ∈ requests, r.OnlyReads i) {replies : List Reply}
    (hrun : trace (Files.step Memory.exec) s requests = some (s', replies))
    (hsizes : ∀ cmd ∈ s'.device.closed, cmd.length ≤ 65536)
    (hlength : s'.device.closed.flatten.length < 2 ^ 63) :
    Reading i s' (delivered ++ readBy i requests replies) := by
  induction requests generalizing s delivered replies with
  | nil =>
    cases hrun
    rw [readBy, List.zipWith_nil_left, List.flatten_nil, List.append_nil]
    exact h
  | cons r rest ih =>
    obtain ⟨out, hstep, hmap⟩ := Option.bind_eq_some_iff.mp hrun
    obtain ⟨last, hlast, heq⟩ := Option.map_eq_some_iff.mp hmap
    cases heq
    have hclosed := (Files.step_closed hstep).trans (Files.trace_closed hlast)
    have hnext := h.step (honly r List.mem_cons_self) hstep
      (small_rtake _ (fun cmd hcmd => hsizes cmd (hclosed.subset hcmd)))
      (hclosed.flatten.length_le.trans_lt hlength)
    have hend := ih hnext (fun r' hr' => honly r' (List.mem_cons_of_mem _ hr')) hlast
    rwa [List.append_assoc] at hend

/-- While no command is gone, the file has read the content from its beginning on. -/
theorem is_front (h : Reading i s delivered) (hten : s.device.closed.length ≤ 10) :
    delivered <+: s.device.closed.flatten := by
  have hin := h.inOrder
  have hevicted : s.device.evicted = [] := by
    rw [Memory.evicted, Nat.sub_eq_zero_of_le hten]
    rfl
  rw [hevicted, List.length_nil, Nat.zero_add] at hin
  have heq := hin.eq_of_length_le (List.length_take_le _ _)
  rw [List.prefix_iff_eq_take]
  exact heq

/-- A read that returns 0 has come to the end. -/
theorem at_end (h : Reading i s delivered) (hten : s.device.closed.length ≤ 10)
    (hsizes : ∀ cmd ∈ s.device.closed, cmd.length ≤ 65536)
    (hlength : s.device.closed.flatten.length < 2 ^ 63) {count uncopied : ℕ}
    (hcount : 0 < count)
    (hread : s.step Memory.exec (.call i (.read count uncopied)) = some (s', ⟨0, []⟩)) :
    delivered = s.device.closed.flatten := by
  obtain ⟨pos, hpos, hstep⟩ := Option.bind_eq_some_iff.mp hread
  have hopen := h.position.resolve_right (by rw [hpos]; simp)
  cases Option.some.inj (hpos.symm.trans hopen)
  have hfront := h.is_front hten
  have hnil : (s.device.read delivered.length count uncopied).data = [] :=
    congrArg (fun out => out.2.data) (Option.some.inj hstep)
  have hzero : (s.device.read delivered.length count uncopied).retval = 0 :=
    congrArg (fun out => out.2.retval) (Option.some.inj hstep)
  have hsame := (s.device.read_fault delivered.length count uncopied).resolve_right
    (by simp [hzero, EFAULT])
  rw [hsame, Memory.read_data] at hnil
  have hle := ((small_rtake _ hsizes).dataAt delivered.length count
    (hfront.length_le.trans_lt hlength) hcount).2 hnil
  rw [List.rtake, Nat.sub_eq_zero_of_le hten, List.drop_zero] at hle
  exact hfront.eq_of_length_le hle

end Reading

/-- A file through which nothing but reads go, with any calls on other files between them:
its successful reads bring bytes of the commands in their order, none twice, and miss at
most as many as are gone. While none are gone they bring the content from the beginning,
and all of it when a read returns 0. -/
theorem polled_in_order {i : ℕ} {requests : List Request} {s : Files Memory}
    {replies : List Reply} (honly : ∀ r ∈ requests, r.OnlyReads i)
    (hrun : trace (Files.step Memory.exec) ⟨.init, fun _ => none⟩ requests = some (s, replies))
    (hsizes : ∀ cmd ∈ s.device.closed, cmd.length ≤ 65536)
    (hlength : s.device.closed.flatten.length < 2 ^ 63) :
    outputs (Files.step Kernel.exec) Files.init requests = some replies ∧
      (readBy i requests replies).Sublist (s.device.closed.flatten.take
        (s.device.evicted.length + (readBy i requests replies).length)) ∧
      (s.device.closed.length ≤ 10 →
        readBy i requests replies <+: s.device.closed.flatten ∧
          ∀ count uncopied, 0 < count →
            outputs (Files.step Kernel.exec) Files.init
              (requests ++ [.call i (.read count uncopied)]) = some (replies ++ [⟨0, []⟩]) →
            readBy i requests replies = s.device.closed.flatten) := by
  have hreading : Reading i s (readBy i requests replies) :=
    Reading.init.run honly hrun hsizes hlength
  refine ⟨?_, hreading.inOrder, fun hten => ⟨hreading.is_front hten, ?_⟩⟩
  · rw [sameFiles_init.outputs_eq, outputs, hrun]
    rfl
  · intro count uncopied hcount hmore
    rw [sameFiles_init.outputs_eq, outputs, trace_append, hrun, Option.bind_some] at hmore
    obtain ⟨last, hlast, hreplies⟩ := Option.map_eq_some_iff.mp hmore
    obtain ⟨out, hout, heq⟩ := Option.map_eq_some_iff.mp hlast
    cases heq
    obtain ⟨next, hread, hnil⟩ := Option.bind_eq_some_iff.mp hout
    cases hnil
    obtain ⟨s', reply⟩ := next
    cases List.append_cancel_left hreplies
    exact hreading.at_end hten hsizes hlength hcount hread

/-- File 0 writes two commands, file 1 reads between and after them, the first
time with a fault. -/
def polledRequests : List Request :=
  [.openFile 0, .openFile 1, .call 0 (.write (.granted ⟨[104, 105, 10], by decide⟩ 3)),
    .call 1 (.read 2 1), .call 1 (.read 1 0), .call 0 (.write (.granted ⟨[98, 10], by decide⟩ 4)),
    .call 1 (.read 9 0), .call 1 (.read 9 0)]

def polledReplies : List Reply :=
  [⟨0, []⟩, ⟨0, []⟩, ⟨3, []⟩, ⟨-EFAULT, [104]⟩, ⟨1, [104]⟩, ⟨2, []⟩, ⟨2, [105, 10]⟩, ⟨2, [98, 10]⟩]

theorem polled_in_order_two :
    readBy 1 polledRequests polledReplies = [104, 105, 10, 98, 10] := by
  have honly : ∀ r ∈ polledRequests, r.OnlyReads 1 := by
    simp [polledRequests, Request.OnlyReads]
  have hends : (trace (Files.step Memory.exec) ⟨.init, fun _ => none⟩ polledRequests).map
      (fun out => (out.1.device, out.2)) =
        some (⟨[[104, 105, 10], [98, 10]], some []⟩, polledReplies) := by decide
  obtain ⟨⟨s, replies⟩, hrun, heq⟩ := Option.map_eq_some_iff.mp hends
  obtain ⟨hdevice, rfl⟩ := Prod.mk.inj heq
  have hpolled := polled_in_order honly hrun (by rw [hdevice]; decide) (by rw [hdevice]; decide)
  have hall := (hpolled.2.2 (by rw [hdevice]; decide)).2 9 0 (by decide) (by decide)
  rw [hall, hdevice]
  rfl

end Aesd.Driver
