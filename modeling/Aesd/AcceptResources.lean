import Aesd.ClientInfos
import Aesd.ClientSockets

/-!
What the accept loop and its threads hold, in every order of their steps and whatever
fails: the nodes, the `client_info` blocks and the sockets are accounted for, apart from a
socket that is closed through a number which `file` or `sockfd` still has.
-/
namespace Aesd.Acceptor

/-- The list and the blocks, which do not depend on the descriptors. -/
structure Kept (s : Process) : Prop where
  listed : Listed s
  informed : Informed s

theorem Kept.descriptors {s : Process} (h : Kept s) (fds : Store Fd) (file : Option ℕ)
    (closed : Bool) : Kept { s with fds := fds, file := file, sockfdClosed := closed } := by
  obtain ⟨hlisted, hinformed⟩ := h
  exact ⟨⟨hlisted.absent, hlisted.busy, hlisted.uncreated, hlisted.linking, hlisted.head_iff,
    hlisted.sorted, hlisted.count, hlisted.nodes⟩, ⟨hinformed.nodup, hinformed.mem_iff⟩⟩

theorem Kept.step {s t : Process} (h : Kept s) (a : Act) (hstep : s.step a = some t) :
    Kept t := by
  obtain ⟨hlisted, hinformed⟩ := id h
  cases a with
  | main fd => exact ⟨hlisted.main fd hstep, hinformed.main hlisted fd hstep⟩
  | begin n =>
    have hinformed' := hinformed.begin hlisted hstep
    obtain ⟨hstage, heq⟩ := Option.ite_none_right_eq_some.mp hstep
    cases heq
    exact ⟨hlisted.advance (by simp [hstage]) (by simp) s.fds (s.infos.erase n) s.sockfdClosed,
      hinformed'⟩
  | openFile n fd =>
    obtain ⟨_, heq⟩ := Option.ite_none_right_eq_some.mp hstep
    cases fd with
    | none =>
      cases heq
      exact h.descriptors s.fds none s.sockfdClosed
    | some pick =>
      cases heq
      exact h.descriptors _ _ s.sockfdClosed
  | closeFile n =>
    obtain ⟨_, heq⟩ := Option.ite_none_right_eq_some.mp hstep
    cases heq
    exact h.descriptors _ s.file _
  | finish n exit =>
    obtain ⟨hstage, heq⟩ := Option.ite_none_right_eq_some.mp hstep
    have hcreated : s.stage n ≠ .absent := by simp [hstage]
    cases exit with
    | noPeerName =>
      cases heq
      exact ⟨hlisted.advance hcreated (by simp) _ s.infos s.sockfdClosed,
        hinformed.advance hstage (by simp) _ s.sockfdClosed⟩
    | served =>
      cases heq
      exact ⟨hlisted.advance hcreated (by simp) _ s.infos s.sockfdClosed,
        hinformed.advance hstage (by simp) _ s.sockfdClosed⟩
    | noBuffer =>
      cases heq
      exact ⟨hlisted.advance hcreated (by simp) _ s.infos _,
        hinformed.advance hstage (by simp) _ _⟩
    | noWriteBuf =>
      cases heq
      exact ⟨hlisted.advance hcreated (by simp) _ s.infos s.sockfdClosed,
        hinformed.advance hstage (by simp) _ s.sockfdClosed⟩
  | openOther pick =>
    cases hstep
    exact h.descriptors _ s.file s.sockfdClosed
  | closeOther fd =>
    obtain ⟨_, heq⟩ := Option.ite_none_right_eq_some.mp hstep
    cases heq
    exact h.descriptors _ s.file s.sockfdClosed

/-- Two threads share `file`. The number that the first one closes for both goes to the third
client, whose socket the second one then closes. -/
def sharedFile : List Act :=
  [.main none, .main (some 4), .main (some 0), .main (some 0), .main (some 0), .main none,
   .main none, .main (some 5), .main (some 0), .main (some 0), .main (some 0), .main none,
   .begin 0, .begin 1, .openFile 0 (some 6), .openFile 1 (some 7), .closeFile 0,
   .main none, .main (some 7), .closeFile 1]

theorem client_closed_by_file :
    (Runs.run Process.step (Process.start (Store.empty.set 3 .listener) 3 (some 3))
      sharedFile).map (fun s => (s.inFlight 2, s.clientSockfd 2, s.fds.data 7)) =
        some (true, 7, none) := by
  decide +kernel

end Aesd.Acceptor
