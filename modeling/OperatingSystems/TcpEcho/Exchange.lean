import OperatingSystems.Library.StringBuffer
import OperatingSystems.TcpEcho.Session

/-!
# What a session delivers

* `Client.Does` — what one call of the client does.
* `Exchanged` — where the bytes are that were typed, whatever fails.
* `echoedInOrder` — the bytes printed, in flight and not yet echoed are those that were sent.
-/

namespace OperatingSystems
namespace TcpEcho

variable {client client' : Client} {s s' : Session} {text : List Byte} {k : Nat}

/-! ### One call of the client -/

/-- The message that is not sent yet. -/
def ClientPc.waiting : ClientPc → List (List Byte)
  | .send buffer => [buffer]
  | _ => []

/-- The child is in its loop, or in front of it. -/
def ChildPc.echoing : ChildPc → Bool
  | .closeServer | .recv | .send _ => true
  | _ => false

/-- What one call of the client does. -/
inductive Client.Does (client : Client) (r : Result) (client' : Client) : Prop
  | read (line rest : List Byte) (pc : client.pc = .fgets) (input : r = .done)
      (fgets : fgets bufSize client.stdin = some (line, rest))
      (result : client' = { client with
        pc := .send (cstr line), stdin := rest, lines := client.lines ++ [line] })
  | eof (pc : client.pc = .fgets) (input : r = .done) (stdin : client.stdin = [])
      (result : client' = client.leave)
  | sent (buffer : List Byte) (pc : client.pc = .send buffer) (input : r = .taken buffer.length)
      (result : client' = { client with pc := .recv, messages := client.messages ++ [buffer] })
  | cut (buffer : List Byte) (n : Nat) (pc : client.pc = .send buffer) (input : r = .taken n)
      (lt : n < buffer.length)
      (result : client' =
        { client.leave with messages := client.messages ++ [buffer.take n] })
  | printed (data : List Byte) (pc : client.pc = .recv) (input : r = .block data)
      (ne : data ≠ [])
      (result : client' =
        { client with pc := .fgets, replies := client.replies ++ [cstr (data ++ [0])] })
  | failed (pc : client.pc ≠ .closed) (input : r = .nothing ∨ r = .failed ∨ r = .killed)
      (result : client' = client.leave)

/-- The terminating NUL of `fgets` ends the string that the line is. -/
theorem cstr_append_zero (line : List Byte) : cstr (line ++ [0]) = cstr line := by
  induction line with
  | nil => rfl
  | cons b line ih =>
      rw [cstr, cstr, List.cons_append, List.takeWhile_cons, List.takeWhile_cons]
      split
      · exact congrArg (b :: ·) ih
      · rfl

theorem Client.does {r : Result} (h : client.next r = some client') : client.Does r client' := by
  unfold Client.next at h
  split at h
  case h_1 hpc =>
      split at h
      case h_1 line rest hfgets =>
          rw [cstr_append_zero] at h
          exact .read line rest hpc rfl hfgets (Option.some.inj h).symm
      case h_2 hfgets =>
          exact .eof hpc rfl (fgets_eq_none_iff.mp hfgets) (Option.some.inj h).symm
  case h_2 buffer n hpc =>
      split at h
      case isTrue heq =>
          subst heq
          exact .sent buffer hpc rfl (Option.some.inj h).symm
      case isFalse =>
          obtain ⟨hlt, h⟩ := Option.ite_none_right_eq_some.mp h
          exact .cut buffer n hpc rfl hlt (Option.some.inj h).symm
  case h_3 buffer hpc => exact .failed (by simp [hpc]) (by simp) (Option.some.inj h).symm
  case h_4 data hpc =>
      obtain ⟨⟨hne, -⟩, h⟩ := Option.ite_none_right_eq_some.mp h
      exact .printed data hpc rfl hne (Option.some.inj h).symm
  case h_5 hpc => exact .failed (by simp [hpc]) (by simp) (Option.some.inj h).symm
  case h_6 =>
      obtain ⟨hpc, h⟩ := Option.ite_none_left_eq_some.mp h
      exact .failed hpc (by simp) (Option.some.inj h).symm
  case h_7 => cases h

/-! ### Where the bytes are -/

/-- The messages are the lines up to their NULs; what is sent is in the child or on the way to it,
and what the child has sent is printed or on the way back. -/
structure Exchanged (text : List Byte) (s : Session) : Prop where
  typed : s.client.lines.flatten ++ s.client.stdin = text
  sending : s.client.pc ≠ .closed →
    s.client.messages ++ s.client.pc.waiting = s.client.lines.map cstr
  sent : s.client.messages.flatten <+: (s.client.lines.map cstr).flatten
  toServer : s.server.got ++ s.toServer = s.client.messages.flatten
  echoing : s.server.pc.echoing = true → s.server.sent ++ s.server.pc.unsent = s.server.got
  echoed : s.server.sent <+: s.server.got
  toClient : s.client.replies.flatten ++ s.toClient = s.server.sent

namespace Exchanged

theorem start (k : Nat) (text : List Byte) : Exchanged text (Session.start k text) :=
  ⟨rfl, fun _ => rfl, List.prefix_rfl, rfl, fun _ => rfl, List.prefix_rfl, rfl⟩

/-- What the child has sent was sent to it. -/
theorem sent_prefix (h : Exchanged text s) : s.server.sent <+: s.client.messages.flatten := by
  rw [← h.toServer]
  exact h.echoed.trans (List.prefix_append _ _)

theorem replies_prefix (h : Exchanged text s) :
    s.client.replies.flatten <+: s.client.messages.flatten := by
  refine List.IsPrefix.trans ?_ h.sent_prefix
  rw [← h.toClient]
  exact List.prefix_append _ _

/-- No NUL comes back, so the client prints whole blocks. -/
theorem zero_notMem_toClient (h : Exchanged text s) : 0 ∉ s.toClient := by
  intro hmem
  have hsent : 0 ∈ s.server.sent := by
    rw [← h.toClient]
    exact List.mem_append_right _ hmem
  have hline := (h.sent_prefix.trans h.sent).subset hsent
  obtain ⟨message, hmessage, hzero⟩ := List.mem_flatten.mp hline
  obtain ⟨line, -, rfl⟩ := List.mem_map.mp hmessage
  exact notMem_cstr line hzero

/-- The client makes a call. -/
theorem clientStep {r : Result} (h : Exchanged text s) (hpre : r.received <+: s.toClient)
    (hnext : s.client.next r = some client') :
    Exchanged text { s with
      client := client'
      toClient := s.toClient.drop r.received.length
      toServer := s.toServer ++ r.given s.client.pc.message } := by
  have hleave : s.client.messages.flatten <+: (s.client.lines.map cstr).flatten := h.sent
  cases Client.does hnext with
  | read line rest hpc hinput hfgets hresult =>
      subst hinput hresult
      have hmessages : s.client.messages = s.client.lines.map cstr := by
        simpa [hpc, ClientPc.waiting] using h.sending (by simp [hpc])
      refine ⟨?_, fun _ => ?_, ?_, ?_, h.echoing, h.echoed, h.toClient⟩
      · rw [List.flatten_append, List.flatten_singleton, List.append_assoc, fgets_append hfgets]
        exact h.typed
      · simp [hmessages, ClientPc.waiting]
      · rw [List.map_append, List.flatten_append]
        exact hleave.trans (List.prefix_append _ _)
      · simpa [Result.given] using h.toServer
  | eof hpc hinput hstdin hresult =>
      subst hinput hresult
      refine ⟨h.typed, fun hopen => absurd rfl hopen, h.sent, ?_, h.echoing, h.echoed, h.toClient⟩
      simpa [Result.given, Client.leave] using h.toServer
  | sent buffer hpc hinput hresult =>
      subst hinput hresult
      have hmessages : s.client.messages ++ [buffer] = s.client.lines.map cstr := by
        simpa [hpc, ClientPc.waiting] using h.sending (by simp [hpc])
      refine ⟨h.typed, fun _ => ?_, ?_, ?_, h.echoing, h.echoed, h.toClient⟩
      · simpa [ClientPc.waiting] using hmessages
      · rw [hmessages]
      · simp only [hpc, ClientPc.message, Result.given, List.take_length, List.flatten_append,
          List.flatten_singleton, ← List.append_assoc, h.toServer]
  | cut buffer n hpc hinput hlt hresult =>
      subst hinput hresult
      have hmessages : s.client.messages ++ [buffer] = s.client.lines.map cstr := by
        simpa [hpc, ClientPc.waiting] using h.sending (by simp [hpc])
      refine ⟨h.typed, fun hopen => absurd rfl hopen, ?_, ?_, h.echoing, h.echoed, h.toClient⟩
      · rw [Client.leave, ← hmessages, List.flatten_append, List.flatten_append,
          List.prefix_append_right_inj, List.flatten_singleton, List.flatten_singleton]
        exact List.take_prefix n buffer
      · simp only [hpc, ClientPc.message, Result.given, List.flatten_append,
          List.flatten_singleton, ← List.append_assoc, h.toServer]
  | printed data hpc hinput hne hresult =>
      subst hinput hresult
      have hmessages : s.client.messages = s.client.lines.map cstr := by
        simpa [hpc, ClientPc.waiting] using h.sending (by simp [hpc])
      have hdata : cstr (data ++ [0]) = data :=
        cstr_append_nul (fun hzero => h.zero_notMem_toClient (hpre.subset hzero)) []
      refine ⟨h.typed, fun _ => ?_, h.sent, by simpa [Result.given] using h.toServer,
        h.echoing, h.echoed, ?_⟩
      · simpa [ClientPc.waiting] using hmessages
      · have hdrop : data ++ s.toClient.drop data.length = s.toClient :=
          List.prefix_iff_eq_append.mp hpre
        simp only [hdata, List.flatten_append, List.flatten_singleton, List.append_assoc]
        rw [Result.received, hdrop]
        exact h.toClient
  | failed hpc hinput hresult =>
      subst hresult
      have hgiven : r.given s.client.pc.message = [] := by
        rcases hinput with rfl | rfl | rfl <;> rfl
      have hreceived : r.received = [] := by
        rcases hinput with rfl | rfl | rfl <;> rfl
      rw [hgiven, hreceived, List.append_nil]
      exact ⟨h.typed, fun hopen => absurd rfl hopen, h.sent, h.toServer, h.echoing, h.echoed,
        h.toClient⟩

/-- The child leaves its loop, or ends. -/
theorem stop {c : Child} (h : Exchanged text s) (hpc : c.pc.echoing = false)
    (hgot : c.got = s.server.got) (hsent : c.sent = s.server.sent) :
    Exchanged text { s with server := c } := by
  refine ⟨h.typed, h.sending, h.sent, ?_, fun hopen => ?_, ?_, ?_⟩
  · rw [hgot]
    exact h.toServer
  · rw [hpc] at hopen
    cases hopen
  · rw [hsent, hgot]
    exact h.echoed
  · rw [hsent]
    exact h.toClient

/-- The child makes a call. -/
theorem serverStep {r : Result} {c : Child} (h : Exchanged text s)
    (hwhole : ∀ n, r = .taken n → n = s.server.pc.unsent.length)
    (hpre : r.received <+: s.toServer) (hnext : s.server.next k r = some c) :
    Exchanged text { s with
      server := c
      toServer := s.toServer.drop r.received.length
      toClient := s.toClient ++ r.given s.server.pc.unsent } := by
  have hstop (hreceived : r.received = []) (hgiven : r.given s.server.pc.unsent = [])
      (hpc : c.pc.echoing = false) (hgot : c.got = s.server.got) (hsent : c.sent = s.server.sent) :
      Exchanged text { s with
        server := c
        toServer := s.toServer.drop r.received.length
        toClient := s.toClient ++ r.given s.server.pc.unsent } := by
    rw [hreceived, hgiven, List.append_nil]
    exact h.stop hpc hgot hsent
  cases Child.does hnext with
  | opened hpc hinput hresult =>
      subst hinput hresult
      refine ⟨h.typed, h.sending, h.sent, h.toServer, fun _ => ?_, h.echoed, ?_⟩
      · simpa [hpc, ChildPc.unsent] using h.echoing (by simp [hpc, ChildPc.echoing])
      · simpa [Result.given] using h.toClient
  | got data hpc hinput hne hresult =>
      subst hinput hresult
      have hdrop : data ++ s.toServer.drop data.length = s.toServer :=
        List.prefix_iff_eq_append.mp hpre
      have hechoing : s.server.sent = s.server.got := by
        simpa [hpc, ChildPc.unsent] using h.echoing (by simp [hpc, ChildPc.echoing])
      refine ⟨h.typed, h.sending, h.sent, ?_, fun _ => ?_, ?_, ?_⟩
      · rw [List.append_assoc, Result.received, hdrop]
        exact h.toServer
      · rw [hechoing, ChildPc.unsent]
      · rw [hechoing]
        exact List.prefix_append _ _
      · simpa [Result.given] using h.toClient
  | ended hpc hinput hresult =>
      subst hinput hresult
      exact hstop rfl rfl rfl rfl rfl
  | sent buffer n hpc hinput hle hresult =>
      obtain rfl : n = buffer.length := by simpa [hpc, ChildPc.unsent] using hwhole n hinput
      subst hinput hresult
      have hechoing : s.server.sent ++ buffer = s.server.got := by
        simpa [hpc, ChildPc.unsent] using h.echoing (by simp [hpc, ChildPc.echoing])
      refine ⟨h.typed, h.sending, h.sent, h.toServer, fun _ => ?_, ?_, ?_⟩
      · simpa [ChildPc.unsent] using hechoing
      · rw [List.take_length, hechoing]
      · simp only [hpc, ChildPc.unsent, Result.given, List.take_length, ← List.append_assoc,
          h.toClient]
  | failed buffer hpc hinput hresult =>
      subst hinput hresult
      exact hstop rfl rfl rfl rfl rfl
  | closed hpc hinput hresult =>
      subst hinput hresult
      exact hstop rfl rfl rfl rfl rfl
  | exited hpc hinput hresult =>
      subst hinput hresult
      exact hstop rfl rfl rfl rfl rfl
  | killed hrunning hinput hresult =>
      subst hinput hresult
      exact hstop rfl rfl rfl rfl rfl

theorem next {a : Session.Input} (h : Exchanged text s) (hwhole : s.whole a = true)
    (hnext : s.next k a = some s') : Exchanged text s' := by
  cases a with
  | client r =>
      obtain ⟨hpre, hnext⟩ := Option.ite_none_right_eq_some.mp hnext
      obtain ⟨client', hclient, rfl⟩ := Option.map_eq_some_iff.mp hnext
      exact h.clientStep (List.isPrefixOf_iff_prefix.mp hpre) hclient
  | server r =>
      obtain ⟨hpre, hnext⟩ := Option.ite_none_right_eq_some.mp hnext
      obtain ⟨c, hc, rfl⟩ := Option.map_eq_some_iff.mp hnext
      refine h.serverStep (fun n hn => ?_) (List.isPrefixOf_iff_prefix.mp hpre) hc
      subst hn
      exact of_decide_eq_true hwhole

end Exchanged

theorem exchanged (hs : (session k).ReachableUnder (· = Session.start k text)
    (fun s a => s.whole a = true) s) : Exchanged text s := by
  refine hs.induction (fun s h => ?_) fun s a s' h hwhole hstep => h.next hwhole hstep
  rw [h]
  exact Exchanged.start k text

/-- Whatever is cut short, and however the bytes are divided: the messages are the lines that were
typed, each up to its NUL, and the last one perhaps cut off; the child has received the first bytes
of them and the rest is on the way; it has sent back the first bytes of what it received; and these
are printed, in order, or on the way. -/
theorem echoedInOrder (hs : (session k).ReachableUnder (· = Session.start k text)
    (fun s a => s.whole a = true) s) :
    s.client.lines.flatten ++ s.client.stdin = text ∧
    s.client.messages.flatten <+: (s.client.lines.map cstr).flatten ∧
    s.server.got ++ s.toServer = s.client.messages.flatten ∧
    s.server.sent <+: s.server.got ∧
    s.client.replies.flatten ++ s.toClient = s.server.sent :=
  have h := exchanged hs
  ⟨h.typed, h.sent, h.toServer, h.echoed, h.toClient⟩

/-- The child is given the first byte of two and fails behind it. -/
theorem echoedInOrder_cut : ∃ s ∈ (session 0).run (fun s a => s.whole a) (Session.start 0 [104, 10])
      [.client .done, .client (.taken 2), .server .done, .server (.block [104]),
        .server (.taken 1), .server (.block [10]), .server .failed],
    s.client.replies.flatten ++ s.toClient = s.server.sent ∧ s.server.sent ≠ s.server.got := by
  obtain ⟨s, hrun, hs, hsent⟩ :=
    (Machine.ReachableUnder.start (M := session 0) rfl : (session 0).ReachableUnder
      (· = Session.start 0 [104, 10]) (fun s a => s.whole a = true) _).exists_run
      (fun _ _ h => h) (fun s => s.server.sent ≠ s.server.got)
      (by decide +kernel : ((session 0).run (fun s a => s.whole a) (Session.start 0 [104, 10])
        [.client .done, .client (.taken 2), .server .done, .server (.block [104]),
          .server (.taken 1), .server (.block [10]), .server .failed]).any _ = true)
  exact ⟨s, hrun, (echoedInOrder hs).2.2.2.2, hsent⟩

end TcpEcho
end OperatingSystems
