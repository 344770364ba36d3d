import Aesd.FileCalls

/-!
The file position over whole runs. It stays a position, and the seeks set it exactly.
What it does not do is count the bytes that were moved: a read adds to it, but a write
sets it to its own count and forgets what was there.
-/
namespace Aesd.Driver

/-- The device has been filled by writes, and the position is one. -/
structure File.Sound (f : File) : Prop where
  holds : ∃ es cmds, Holds f.kernel es cmds
  nonneg : 0 ≤ f.fPos
  lt : f.fPos < 2 ^ 63

theorem sound_of_run (before : List WriteCall) (k : Kernel)
    (hbefore : runWrites aesdInitModule before = some k) (p : ℤ) (hp : 0 ≤ p) (hlt : p < 2 ^ 63) :
    File.Sound ⟨k, p⟩ :=
  ⟨exists_holds before k hbefore, hp, hlt⟩

/-- What a read returns has been added to the position, if it is no error. -/
theorem File.Sound.read {f g : File} (h : f.Sound) {count uncopied : ℕ} {ret : ℤ}
    (hcount : count < 2 ^ 62 ∨ f.kernel.dev.circularBuffer.liveSizes.sum < 2 ^ 62)
    (hexec : f.exec (.read count uncopied) = some (g, ret)) :
    g.Sound ∧ (g.fPos = f.fPos ∧ ret < 0 ∧ uncopied ≠ 0 ∨ g.fPos = f.fPos + ret ∧ 0 ≤ ret) := by
  obtain ⟨⟨es, cmds, hholds⟩, hnonneg, hlt⟩ := h
  have hlive := hholds.shows.sum_liveSizes
  obtain ⟨r, hr, hout⟩ := Option.map_eq_some_iff.mp hexec
  cases hout
  rcases hholds.shows.read_effect hr with ⟨hpos, hret⟩ | ⟨n, hn, hn', hsmall, hpos, hret⟩
  · refine ⟨⟨⟨es, cmds, hholds⟩, hpos ▸ hnonneg, hpos ▸ hlt⟩, ?_⟩
    rcases hret with hzero | ⟨hcopy, hfault⟩
    · exact Or.inr ⟨by rw [hpos, hzero, add_zero], hzero.ge⟩
    · exact Or.inl ⟨hpos, by rw [hfault]; decide, hcopy⟩
  · rw [sizeT_of_range f.fPos hnonneg hlt] at hsmall
    rw [loffT_of_range _ (by omega) (by omega)] at hpos hret
    refine ⟨⟨⟨es, cmds, hholds⟩, ?_, ?_⟩, Or.inr ⟨?_, ?_⟩⟩
    · change 0 ≤ r.fPos
      omega
    · change r.fPos < 2 ^ 63
      omega
    · rw [hpos, hret]
    · omega

theorem File.Sound.write {f g : File} (h : f.Sound) {call : WriteCall} {ret : ℤ}
    (hexec : f.exec (.write call) = some (g, ret)) :
    g.Sound ∧ (g.fPos = f.fPos ∧ ret < 0 ∧ ¬ call.Succeeds ∨ g.fPos = ret ∧ 0 < ret) := by
  obtain ⟨⟨es, cmds, hholds⟩, hnonneg, hlt⟩ := h
  obtain ⟨r, hr, hout⟩ := Option.map_eq_some_iff.mp hexec
  cases hout
  obtain ⟨es', cmds', hholds', _⟩ := hholds.write _ r hr
  rcases write_effect hr with ⟨hpos, hret, hfails⟩ | ⟨buf, _, hcount, hpos, hret⟩
  · exact ⟨⟨⟨es', cmds', hholds'⟩, hpos ▸ hnonneg, hpos ▸ hlt⟩, Or.inl ⟨hpos, hret, hfails⟩⟩
  · have hbuf := buf.count_lt
    refine ⟨⟨⟨es', cmds', hholds'⟩, ?_, ?_⟩, Or.inr ⟨?_, ?_⟩⟩
    · change 0 ≤ r.fPos
      omega
    · change r.fPos < 2 ^ 63
      rw [hpos, UserBuf.count]
      omega
    · rw [hpos, hret]
    · omega

/-- An open file and the sum of what the calls on it have returned. -/
structure Account where
  file : File
  returned : ℤ

def Account.step (a : Account) (call : FileCall) : Option Account :=
  (a.file.exec call).map (fun out => ⟨out.1, a.returned + out.2⟩)

/-- A read or a write that the kernel lets through. The file layer cuts every count to
0x7ffff000, far below the bound for the reads. -/
def FileCall.Transfers : FileCall → Prop
  | .read count uncopied => count < 2 ^ 62 ∧ uncopied = 0
  | .write call => call.Succeeds
  | _ => False

/-- Where the counting starts: a write forgets the position before it. -/
def FileCall.origin (call : FileCall) (fPos : ℤ) : ℤ := if call.isWrite then 0 else fPos

theorem File.Sound.transfer {f g : File} (h : f.Sound) {call : FileCall} {ret : ℤ}
    (hcall : call.Transfers) (hexec : f.exec call = some (g, ret)) :
    g.Sound ∧ g.fPos = call.origin f.fPos + ret := by
  cases call with
  | read count uncopied =>
    obtain ⟨hsound, ⟨_, _, hcopy⟩ | ⟨hpos, _⟩⟩ := h.read (Or.inl hcall.1) hexec
    · exact absurd hcall.2 hcopy
    · exact ⟨hsound, hpos⟩
  | write call =>
    obtain ⟨hsound, ⟨_, _, hfails⟩ | ⟨hpos, _⟩⟩ := h.write hexec
    · exact absurd hcall hfails
    · exact ⟨hsound, hpos.trans (zero_add ret).symm⟩
  | llseek off whence => exact hcall.elim
  | ioctl cmd arg interrupted => exact hcall.elim

/-- The call is no write, or it is made at position 0. -/
def WritesAtZero (a : Account) (call : FileCall) : Prop :=
  call.isWrite = true → a.file.fPos = 0

instance (a : Account) (call : FileCall) : Decidable (WritesAtZero a call) :=
  inferInstanceAs (Decidable (call.isWrite = true → a.file.fPos = 0))

/-- What a run of transfers has moved is never less than the position shows, and the two
agree as long as every write has been made at position 0. -/
theorem Account.run_transfers {start : Account} (hstart : start.file.Sound)
    (calls : List FileCall) (hcalls : ∀ call ∈ calls, call.Transfers) {a : Account}
    (hrun : Runs.run Account.step start calls = some a) :
    a.file.Sound ∧ a.file.fPos + start.returned ≤ start.file.fPos + a.returned ∧
      (a.file.fPos + start.returned = start.file.fPos + a.returned ↔
        Runs.Meets Account.step WritesAtZero start calls) := by
  induction calls using List.reverseRecOn generalizing a with
  | nil =>
    cases Option.some.inj hrun
    exact ⟨hstart, le_rfl, iff_of_true rfl (Runs.meets_nil _)⟩
  | append_singleton calls call ih =>
    obtain ⟨b, hb, hlast⟩ := (Runs.run_concat_eq_some calls call).mp hrun
    obtain ⟨out, hexec, rfl⟩ := Option.map_eq_some_iff.mp hlast
    obtain ⟨hsound, hle, hiff⟩ := ih (fun c hc => hcalls c (List.mem_append_left _ hc)) hb
    obtain ⟨hnext, hpos⟩ := hsound.transfer (hcalls call (by simp)) hexec
    have hnonneg := hsound.nonneg
    rw [Runs.meets_concat_iff hb, ← hiff, WritesAtZero]
    rw [FileCall.origin] at hpos
    refine ⟨hnext, ?_⟩
    simp only [hpos]
    cases call.isWrite with
    | false =>
      simp only [Bool.false_eq_true, if_false, false_implies, and_true]
      omega
    | true =>
      simp only [if_true, true_implies]
      omega

/-- In every run of successful reads and writes, on any device, the position at the end is
the first one plus all that was returned if and only if every write was made at position 0. -/
theorem position_accounts_iff (before : List WriteCall) (k : Kernel)
    (hbefore : runWrites aesdInitModule before = some k) (p : ℤ) (hp : 0 ≤ p ∧ p < 2 ^ 63)
    (calls : List FileCall) (hcalls : ∀ call ∈ calls, call.Transfers) (a : Account)
    (hrun : Runs.run Account.step ⟨⟨k, p⟩, 0⟩ calls = some a) :
    a.file.fPos = p + a.returned ↔
      Runs.Meets Account.step WritesAtZero ⟨⟨k, p⟩, 0⟩ calls := by
  have hiff := (Account.run_transfers (sound_of_run before k hbefore p hp.1 hp.2) calls hcalls
    hrun).2.2
  rw [add_zero] at hiff
  exact hiff

instance (call : FileCall) : Decidable call.Transfers :=
  match call with
  | .read count uncopied => inferInstanceAs (Decidable (count < 2 ^ 62 ∧ uncopied = 0))
  | .write call => inferInstanceAs (Decidable call.Succeeds)
  | .llseek _ _ => .isFalse id
  | .ioctl _ _ _ => .isFalse id

/-- One write at position 0, then two reads of what was there before and of what was
written. -/
theorem position_accounts_sample :
    ∃ k a, runWrites aesdInitModule [.granted ⟨[97, 98, 99, 10], by decide⟩ 0] = some k ∧
      Runs.run Account.step ⟨⟨k, 0⟩, 0⟩ [.write (.granted ⟨[120, 10], by decide⟩ 1),
        .read 10 0, .read 10 0] = some a ∧
      a.returned = 6 ∧ a.file.fPos = 0 + a.returned := by
  obtain ⟨k, hk⟩ := Option.isSome_iff_exists.mp (show (runWrites aesdInitModule
    [.granted ⟨[97, 98, 99, 10], by decide⟩ 0]).isSome = true by decide)
  have hvals : ((runWrites aesdInitModule [.granted ⟨[97, 98, 99, 10], by decide⟩ 0]).bind
      (fun k => Runs.run Account.step ⟨⟨k, 0⟩, 0⟩ [.write (.granted ⟨[120, 10], by decide⟩ 1),
        .read 10 0, .read 10 0])).map Account.returned = some 6 := by decide
  have hmeets : ∀ k ∈ runWrites aesdInitModule [.granted ⟨[97, 98, 99, 10], by decide⟩ 0],
      Runs.Meets Account.step WritesAtZero ⟨⟨k, 0⟩, 0⟩
        [.write (.granted ⟨[120, 10], by decide⟩ 1), .read 10 0, .read 10 0] := by decide
  rw [hk, Option.bind_some] at hvals
  obtain ⟨a, ha, hreturned⟩ := Option.map_eq_some_iff.mp hvals
  exact ⟨k, a, hk, ha, hreturned, (position_accounts_iff _ k hk 0 (by decide) _ (by decide) a
    ha).mpr (hmeets k hk)⟩

/-- Two writes of one byte each on a new device return 2 in all and leave the position
at 1. -/
theorem position_forgets_write :
    ∃ calls a, (∀ call ∈ calls, call.Transfers) ∧
      Runs.run Account.step ⟨⟨aesdInitModule, 0⟩, 0⟩ calls = some a ∧
      a.returned = 2 ∧ a.file.fPos = 1 ∧ a.file.fPos ≠ 0 + a.returned := by
  have hvals : (Runs.run Account.step ⟨⟨aesdInitModule, 0⟩, 0⟩
      [.write (.granted ⟨[97], by decide⟩ 0), .write (.granted ⟨[98], by decide⟩ 0)]).map
        (fun a => (a.returned, a.file.fPos)) = some (2, 1) := by decide
  obtain ⟨a, ha, hvals⟩ := Option.map_eq_some_iff.mp hvals
  simp only [Prod.mk.injEq] at hvals
  refine ⟨_, a, by decide, ha, hvals.1, hvals.2, ?_⟩
  rw [hvals.1, hvals.2]
  decide

/-- The offset is a `loff_t`. -/
def FileCall.OffsetFits : FileCall → Prop
  | .llseek off _ => -2 ^ 63 ≤ off ∧ off < 2 ^ 63
  | _ => True

instance (call : FileCall) : Decidable call.OffsetFits :=
  match call with
  | .llseek off _ => inferInstanceAs (Decidable (-2 ^ 63 ≤ off ∧ off < 2 ^ 63))
  | .read _ _ => .isTrue trivial
  | .write _ => .isTrue trivial
  | .ioctl _ _ _ => .isTrue trivial

/-- The live total and the counter are below 2^62, and an offset is a 64-bit value. -/
@[mk_iff]
structure Within (f : File) (call : FileCall) : Prop where
  live : f.kernel.dev.circularBuffer.liveSizes.sum < 2 ^ 62
  counter : f.kernel.dev.bufferSize < 2 ^ 62
  off : call.OffsetFits

instance (f : File) (call : FileCall) : Decidable (Within f call) :=
  decidable_of_iff _ (within_iff f call).symm

def File.step (f : File) (call : FileCall) : Option File := (f.exec call).map Prod.fst

/-- What a call does to the position: an error leaves it where it was, a seek sets and
returns the exact sum if that is a position, and refuses it otherwise. Only a write can
be without a result, when its sizes do not fit. -/
structure PositionExact (f : File) (call : FileCall) : Prop where
  failed : ∀ g ret, f.exec call = some (g, ret) → ret < 0 → g.fPos = f.fPos
  seek : ∀ off whence base, call = .llseek off whence →
    seekBase f.kernel.dev f.fPos whence = some base →
    f.exec call = some (if 0 ≤ base + off ∧ base + off < 2 ^ 63 then
      (⟨f.kernel, base + off⟩, base + off) else (f, -EINVAL))
  defined : call.isWrite = false → (f.exec call).isSome = true

/-- The base of a seek is a position. -/
theorem File.Sound.base {f : File} (h : f.Sound) (hcounter : f.kernel.dev.bufferSize < 2 ^ 62)
    {whence : Whence} {base : ℤ} (hbase : seekBase f.kernel.dev f.fPos whence = some base) :
    0 ≤ base ∧ base < 2 ^ 63 := by
  cases whence with
  | seekSet =>
    cases hbase
    decide
  | seekCur =>
    cases hbase
    exact ⟨h.nonneg, h.lt⟩
  | seekEnd =>
    cases hbase
    omega
  | other => cases hbase

theorem File.Sound.exec_llseek {f : File} (h : f.Sound) {off : ℤ} {whence : Whence}
    (hwithin : Within f (.llseek off whence)) {base : ℤ}
    (hbase : seekBase f.kernel.dev f.fPos whence = some base) :
    f.exec (.llseek off whence) = some (if 0 ≤ base + off ∧ base + off < 2 ^ 63 then
      (⟨f.kernel, base + off⟩, base + off) else (f, -EINVAL)) := by
  obtain ⟨hnonneg, hlt⟩ := h.base hwithin.counter hbase
  simp only [File.exec]
  rw [llseek_exact _ _ off base whence hbase hnonneg hlt hwithin.off]
  split <;> rfl

/-- Each call leaves a sound file, and one that fails leaves the position. -/
theorem File.Sound.exec {f g : File} (h : f.Sound) {call : FileCall} (hwithin : Within f call)
    {ret : ℤ} (hexec : f.exec call = some (g, ret)) :
    g.Sound ∧ (ret < 0 → g.fPos = f.fPos) := by
  cases call with
  | read count uncopied =>
    obtain ⟨hsound, ⟨hpos, _⟩ | ⟨_, hret⟩⟩ := h.read (Or.inr hwithin.live) hexec
    · exact ⟨hsound, fun _ => hpos⟩
    · exact ⟨hsound, fun hneg => absurd hneg (not_lt.mpr hret)⟩
  | write call =>
    obtain ⟨hsound, ⟨hpos, _⟩ | ⟨_, hret⟩⟩ := h.write hexec
    · exact ⟨hsound, fun _ => hpos⟩
    · exact ⟨hsound, fun hneg => absurd hneg (not_lt.mpr hret.le)⟩
  | llseek off whence =>
    cases hbase : seekBase f.kernel.dev f.fPos whence with
    | none =>
      cases whence with
      | other =>
        cases hexec
        exact ⟨h, fun _ => rfl⟩
      | _ => cases hbase
    | some base =>
      rw [h.exec_llseek hwithin hbase] at hexec
      split at hexec
      · rename_i hin
        cases hexec
        exact ⟨⟨h.holds, hin.1, hin.2⟩, fun hneg => absurd hneg (not_lt.mpr hin.1)⟩
      · cases hexec
        exact ⟨h, fun _ => rfl⟩
  | ioctl cmd arg interrupted =>
    obtain ⟨es, cmds, hholds⟩ := h.holds
    have hlive := hwithin.live
    rw [hholds.shows.sum_liveSizes] at hlive
    simp only [File.exec] at hexec
    rcases hholds.ioctl_effect hlive f.fPos cmd arg interrupted with
      ⟨errno, _, heq⟩ | ⟨pos, hpos, heq⟩
    · rw [heq] at hexec
      cases hexec
      exact ⟨h, fun _ => rfl⟩
    · rw [heq] at hexec
      cases hexec
      refine ⟨⟨h.holds, Int.natCast_nonneg pos, ?_⟩, fun hneg => absurd hneg (lt_irrefl 0)⟩
      change (pos : ℤ) < 2 ^ 63
      omega

theorem File.Sound.positionExact {f : File} (h : f.Sound) {call : FileCall}
    (hwithin : Within f call) : PositionExact f call where
  failed g ret hexec := (h.exec hwithin hexec).2
  seek off whence base hcall hbase := by
    subst hcall
    exact h.exec_llseek hwithin hbase
  defined hwrite := by
    cases call with
    | read count uncopied =>
      obtain ⟨es, cmds, hholds⟩ := h.holds
      have hlive := hwithin.live
      rw [hholds.shows.sum_liveSizes] at hlive
      have hlen : ∀ cmd ∈ cmds.rtake 10, cmd.length < 2 ^ 64 := by
        intro cmd hcmd
        have hle := (List.sublist_flatten_of_mem hcmd).length_le
        omega
      obtain ⟨r, hr⟩ := hholds.shows.read_defined f.fPos count uncopied hlen
      simp only [File.exec, hr, Option.map_some, Option.isSome_some]
    | write call => cases hwrite
    | llseek off whence => rfl
    | ioctl cmd arg interrupted => rfl

/-- Over every run on one open file the position stays in the range of positions, and in
every state of the run each call treats it exactly. -/
theorem position_stays_exact (before : List WriteCall) (k : Kernel)
    (hbefore : runWrites aesdInitModule before = some k) (calls : List FileCall) (f : File)
    (hwithin : Runs.Meets File.step Within ⟨k, 0⟩ calls)
    (hrun : Runs.run File.step ⟨k, 0⟩ calls = some f) :
    (0 ≤ f.fPos ∧ f.fPos < 2 ^ 63) ∧ ∀ call, Within f call → PositionExact f call := by
  have hsound : f.Sound := by
    refine Runs.run_invariant File.Sound Within
      (sound_of_run before k hbefore 0 le_rfl (by decide)) ?_ calls hwithin hrun
    intro u call v hu hcall hstep
    obtain ⟨out, hexec, rfl⟩ := Option.map_eq_some_iff.mp hstep
    exact (hu.exec hcall hexec).1
  exact ⟨⟨hsound.nonneg, hsound.lt⟩, fun call hcall => hsound.positionExact hcall⟩

/-- From the last position one more byte is refused. -/
theorem position_stays_exact_at_end :
    ∃ k f, runWrites aesdInitModule [.granted ⟨[97, 10], by decide⟩ 0] = some k ∧
      Runs.run File.step ⟨k, 0⟩ [.llseek (2 ^ 63 - 1) .seekSet] = some f ∧
      f.fPos = 2 ^ 63 - 1 ∧ f.exec (.llseek 1 .seekCur) = some (f, -EINVAL) := by
  obtain ⟨k, hk⟩ := Option.isSome_iff_exists.mp (show (runWrites aesdInitModule
    [.granted ⟨[97, 10], by decide⟩ 0]).isSome = true by decide)
  have hwithin : ∀ k ∈ runWrites aesdInitModule [.granted ⟨[97, 10], by decide⟩ 0],
      Runs.Meets File.step Within ⟨k, 0⟩
        ([.llseek (2 ^ 63 - 1) .seekSet] ++ [.llseek 1 .seekCur]) := by decide
  have hmeets := hwithin k hk
  have hrun : Runs.run File.step ⟨k, 0⟩ [.llseek (2 ^ 63 - 1) .seekSet] =
      some ⟨k, 2 ^ 63 - 1⟩ := rfl
  obtain ⟨_, hexact⟩ := position_stays_exact _ k hk _ _ hmeets.init hrun
  have hseek := (hexact _ (hmeets.last hrun)).seek 1 .seekCur (2 ^ 63 - 1) rfl rfl
  rw [if_neg (by decide)] at hseek
  exact ⟨k, _, hk, hrun, rfl, hseek⟩

end Aesd.Driver
