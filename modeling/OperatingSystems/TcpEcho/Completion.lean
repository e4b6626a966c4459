import OperatingSystems.TcpEcho.Exchange

/-!
# When a session comes to its end

Here nothing fails.  The client prints one block for each line and never more than it has sent, so
after a line that is not empty something is still on the way to it, and the session goes on.

* `Live` — the client and the child at each call.
* `Session.rank` — falls with every call.
* `completes` — a session that stands still is over, or the last line began with a NUL.
* `sessionCalls_le` — a session makes a bounded number of calls.
-/

namespace OperatingSystems
namespace TcpEcho

variable {client client' : Client} {s s' : Session} {text : List Byte} {k : Nat}

/-- While nothing fails: one reply a message, and at the `recv` the last message has not begun to
come back.  The child leaves its loop when the client has closed and everything is echoed. -/
structure Live (s : Session) : Prop where
  lines : ∀ line ∈ s.client.lines, line ≠ []
  counts : s.client.replies.length + (if s.client.pc = .recv then 1 else 0) =
    s.client.messages.length
  messages : s.client.messages ++ s.client.pc.waiting = s.client.lines.map cstr
  behind : s.client.pc = .recv →
    s.client.replies.flatten <+: s.client.messages.dropLast.flatten
  kept : s.server.sent ++ s.server.pc.unsent = s.server.got
  eof : s.client.pc = .closed → s.client.stdin = []
  ended : s.server.pc.echoing = false → s.toServer = [] ∧ s.client.pc = .closed
  notReaped : s.server.pc ≠ .reaped

theorem Child.not_echoing_of_not_serving {c : Child} (h : c.serving = false) :
    c.pc.echoing = false := by
  unfold Child.serving Child.running at h
  cases hpc : c.pc <;> simp_all [ChildPc.echoing]

namespace Live

theorem start (k : Nat) (text : List Byte) : Live (Session.start k text) :=
  ⟨nofun, rfl, rfl, nofun, rfl, nofun, nofun, nofun⟩

/-- The client makes a call that works. -/
theorem clientStep {r : Result} (h : Live s) (he : Exchanged text s)
    (hworks : s.works (.client r) = true) (hnext : s.client.next r = some client') :
    Live { s with
      client := client'
      toClient := s.toClient.drop r.received.length
      toServer := s.toServer ++ r.given s.client.pc.message } := by
  have hcounts := h.counts
  have hmessages := h.messages
  -- The child is still in its loop while the client has not closed.
  have hover (hopen : s.client.pc ≠ .closed) : ¬ s.server.pc.echoing = false :=
    fun hover => hopen (h.ended hover).2
  cases Client.does hnext with
  | read line rest hpc hinput hfgets hresult =>
      subst hinput hresult
      simp only [hpc, ClientPc.waiting, List.append_nil, reduceCtorEq, if_false,
        Nat.add_zero] at hcounts hmessages
      refine ⟨?_, by simpa using hcounts, ?_, by simp, h.kept, by simp,
        fun hout => absurd hout (hover (by simp [hpc])), h.notReaped⟩
      · simp only [List.mem_append, List.mem_singleton]
        rintro _ (hline | rfl)
        · exact h.lines _ hline
        · exact fgets_ne_nil (by decide) hfgets
      · simp [hmessages, ClientPc.waiting]
  | eof hpc hinput hstdin hresult =>
      subst hinput hresult
      simp only [hpc, ClientPc.waiting, List.append_nil, reduceCtorEq, if_false,
        Nat.add_zero] at hcounts hmessages
      exact ⟨h.lines, hcounts, by simpa [Client.leave, ClientPc.waiting] using hmessages, by simp [Client.leave],
        h.kept, fun _ => hstdin, fun hout => absurd hout (hover (by simp [hpc])), h.notReaped⟩
  | sent buffer hpc hinput hresult =>
      subst hinput hresult
      simp only [hpc, ClientPc.waiting, reduceCtorEq, if_false, Nat.add_zero] at hcounts hmessages
      refine ⟨h.lines, by simpa using hcounts, by simpa [ClientPc.waiting] using hmessages,
        fun _ => ?_, h.kept, by simp, fun hout => absurd hout (hover (by simp [hpc])), h.notReaped⟩
      rw [List.dropLast_concat]
      exact he.replies_prefix
  | cut buffer n hpc hinput hlt hresult =>
      subst hinput
      have hn : n = buffer.length := by simpa [Session.works, hpc, ClientPc.message] using hworks
      omega
  | printed data hpc hinput hne hresult =>
      subst hinput hresult
      simp only [hpc, ClientPc.waiting, List.append_nil, if_true] at hcounts hmessages
      exact ⟨h.lines, by simpa using hcounts, by simpa [ClientPc.waiting] using hmessages, by simp,
        h.kept, by simp, fun hout => absurd hout (hover (by simp [hpc])), h.notReaped⟩
  | failed hpc hinput hresult =>
      rcases hinput with rfl | rfl | rfl
      -- The end of its stream would be the end of the child.
      · have hserving := (of_decide_eq_true hworks).2
        exact absurd (Child.not_echoing_of_not_serving hserving) (hover hpc)
      · cases hworks
      · cases hworks

/-- The child makes a call that works. -/
theorem serverStep {r : Result} {c : Child} (h : Live s) (hworks : s.works (.server r) = true)
    (hnext : s.server.next k r = some c) :
    Live { s with
      server := c
      toServer := s.toServer.drop r.received.length
      toClient := s.toClient ++ r.given s.server.pc.unsent } := by
  have hkept := h.kept
  cases Child.does hnext with
  | opened hpc hinput hresult =>
      subst hinput hresult
      refine ⟨h.lines, h.counts, h.messages, h.behind, ?_, h.eof,
        by simp [ChildPc.echoing], by simp⟩
      simpa [hpc, ChildPc.unsent] using hkept
  | got data hpc hinput hne hresult =>
      subst hinput hresult
      refine ⟨h.lines, h.counts, h.messages, h.behind, ?_, h.eof,
        by simp [ChildPc.echoing], by simp⟩
      simp only [hpc, ChildPc.unsent, List.append_nil] at hkept
      rw [hkept, ChildPc.unsent]
  | ended hpc hinput hresult =>
      subst hinput hresult
      obtain ⟨hempty, hclosed⟩ := of_decide_eq_true hworks
      refine ⟨h.lines, h.counts, h.messages, h.behind, ?_, h.eof,
        fun _ => ⟨?_, hclosed⟩, by simp⟩
      · simpa [hpc, ChildPc.unsent] using hkept
      · rw [hempty, List.drop_nil]
  | sent buffer n hpc hinput hle hresult =>
      subst hinput hresult
      obtain rfl : n = buffer.length := by
        simpa [Session.works, hpc, ChildPc.unsent] using hworks
      refine ⟨h.lines, h.counts, h.messages, h.behind, ?_, h.eof,
        by simp [ChildPc.echoing], by simp⟩
      simpa [hpc, ChildPc.unsent] using hkept
  | failed buffer hpc hinput hresult =>
      subst hinput
      cases hworks
  | closed hpc hinput hresult =>
      subst hinput hresult
      refine ⟨h.lines, h.counts, h.messages, h.behind, ?_, h.eof, fun _ => ?_, by simp⟩
      · simpa [hpc, ChildPc.unsent] using hkept
      · exact h.ended (by rw [hpc]; rfl)
  | exited hpc hinput hresult =>
      subst hinput hresult
      refine ⟨h.lines, h.counts, h.messages, h.behind, ?_, h.eof, fun _ => ?_,
        by simp [Child.terminate]⟩
      · simpa [hpc, ChildPc.unsent, Child.terminate] using hkept
      · exact h.ended (by rw [hpc]; rfl)
  | killed hrunning hinput hresult =>
      subst hinput
      cases hworks

theorem next {a : Session.Input} (h : Live s) (he : Exchanged text s) (hworks : s.works a = true)
    (hnext : s.next k a = some s') : Live s' := by
  cases a with
  | client r =>
      obtain ⟨-, hnext⟩ := Option.ite_none_right_eq_some.mp hnext
      obtain ⟨client', hclient, rfl⟩ := Option.map_eq_some_iff.mp hnext
      exact h.clientStep he hworks hclient
  | server r =>
      obtain ⟨-, hnext⟩ := Option.ite_none_right_eq_some.mp hnext
      obtain ⟨c, hc, rfl⟩ := Option.map_eq_some_iff.mp hnext
      exact h.serverStep hworks hc

end Live

theorem Session.whole_of_works {a : Session.Input} (h : s.works a = true) : s.whole a = true := by
  unfold Session.whole
  split
  · exact h
  · rfl

theorem live (hs : (session k).ReachableUnder (· = Session.start k text)
    (fun s a => s.works a = true) s) : Exchanged text s ∧ Live s := by
  refine hs.induction (I := fun s => Exchanged text s ∧ Live s) (fun s h => ?_)
    fun s a s' ⟨he, h⟩ hworks hstep =>
      ⟨he.next (Session.whole_of_works hworks) hstep, h.next he hworks hstep⟩
  rw [h]
  exact ⟨Exchanged.start k text, Live.start k text⟩

/-! ### No call is possible -/

section Stuck

variable (hstuck : ∀ a, s.works a = true → s.next k a = none)
include hstuck

theorem client_next_eq_none {r : Result} (hworks : s.works (.client r) = true)
    (hpre : r.received <+: s.toClient) : s.client.next r = none := by
  have hnone := hstuck (.client r) hworks
  simpa only [Session.next, if_pos (List.isPrefixOf_iff_prefix.mpr hpre),
    Option.map_eq_none_iff] using hnone

theorem server_next_eq_none {r : Result} (hworks : s.works (.server r) = true)
    (hpre : r.received <+: s.toServer) : s.server.next k r = none := by
  have hnone := hstuck (.server r) hworks
  simpa only [Session.next, if_pos (List.isPrefixOf_iff_prefix.mpr hpre),
    Option.map_eq_none_iff] using hnone

/-- The client can go on unless it has closed or waits for its child. -/
theorem client_stuck : s.client.pc = .closed ∨
    s.client.pc = .recv ∧ s.toClient = [] ∧ s.server.serving = true := by
  cases hpc : s.client.pc with
  | fgets =>
      have hnone := client_next_eq_none hstuck (r := .done) rfl List.nil_prefix
      simp only [Client.next, hpc] at hnone
      split at hnone <;> cases hnone
  | send buffer =>
      have hnone := client_next_eq_none hstuck (r := .taken buffer.length)
        (by simp [Session.works, hpc, ClientPc.message]) List.nil_prefix
      simp [Client.next, hpc] at hnone
  | recv =>
      refine .inr ⟨rfl, ?_⟩
      have hempty : s.toClient = [] := by
        by_contra hne
        have hnone := client_next_eq_none hstuck (r := .block (s.toClient.take 1)) rfl
          (List.take_prefix _ _)
        have hblock : s.toClient.take 1 ≠ [] ∧ (s.toClient.take 1).length ≤ bufSize - 1 :=
          ⟨by simpa using hne, (List.length_take_le 1 _).trans (by decide)⟩
        simp only [Client.next, hpc, if_pos hblock, reduceCtorEq] at hnone
      refine ⟨hempty, ?_⟩
      by_contra hserving
      have hnone := client_next_eq_none hstuck (r := .nothing)
        (by simpa [Session.works, hempty] using hserving) List.nil_prefix
      simp [Client.next, hpc] at hnone
  | closed => exact .inl rfl

/-- The child can go on unless it has ended or waits for its client. -/
theorem server_stuck : s.server.pc = .zombie ∨ s.server.pc = .reaped ∨
    s.server.pc = .recv ∧ s.toServer = [] ∧ s.client.pc ≠ .closed := by
  cases hpc : s.server.pc with
  | closeServer =>
      have hnone := server_next_eq_none hstuck (r := .done) rfl List.nil_prefix
      simp [Child.next, hpc] at hnone
  | recv =>
      refine .inr (.inr ⟨rfl, ?_⟩)
      have hempty : s.toServer = [] := by
        by_contra hne
        have hnone := server_next_eq_none hstuck (r := .block (s.toServer.take 1)) rfl
          (List.take_prefix _ _)
        have hblock : s.toServer.take 1 ≠ [] ∧ (s.toServer.take 1).length ≤ bufferSize :=
          ⟨by simpa using hne, (List.length_take_le 1 _).trans (by decide)⟩
        simp only [Child.next, hpc, if_pos hblock, reduceCtorEq] at hnone
      refine ⟨hempty, fun hclosed => ?_⟩
      have hnone := server_next_eq_none hstuck (r := .nothing)
        (by simp [Session.works, hempty, hclosed]) List.nil_prefix
      simp [Child.next, hpc] at hnone
  | send buffer =>
      have hnone := server_next_eq_none hstuck (r := .taken buffer.length)
        (by simp [Session.works, hpc, ChildPc.unsent]) List.nil_prefix
      simp [Child.next, hpc] at hnone
  | close =>
      have hnone := server_next_eq_none hstuck (r := .done) rfl List.nil_prefix
      simp [Child.next, hpc] at hnone
  | exit =>
      have hnone := server_next_eq_none hstuck (r := .done) rfl List.nil_prefix
      simp [Child.next, hpc] at hnone
  | zombie => exact .inl rfl
  | reaped => exact .inr (.inl rfl)

end Stuck

theorem head?_of_cstr_eq_nil {line : List Byte} (hne : line ≠ []) (h : cstr line = []) :
    line.head? = some 0 := by
  cases line with
  | nil => exact absurd rfl hne
  | cons b line =>
      by_contra hb
      rw [cstr, List.takeWhile_cons_of_pos (by simpa using hb)] at h
      cases h

/-- The last line has nothing in front of its NUL when its message has come back with the others
before it was begun. -/
theorem Live.last_line (h : Live s) (hpc : s.client.pc = .recv)
    (hreplies : s.client.replies.flatten = s.client.messages.flatten) :
    ∃ line, s.client.lines.getLast? = some line ∧ line.head? = some 0 := by
  have hcounts := h.counts
  have hmessages : s.client.messages = s.client.lines.map cstr := by
    simpa [hpc, ClientPc.waiting] using h.messages
  have hne : s.client.messages ≠ [] := by
    intro hnil
    simp [hpc, hnil] at hcounts
  have hbehind := h.behind hpc
  rw [hreplies] at hbehind
  have hsplit := List.dropLast_append_getLast hne
  have hlast : s.client.messages.getLast hne = [] := by
    have hflatten : s.client.messages.flatten =
        s.client.messages.dropLast.flatten ++ s.client.messages.getLast hne := by
      conv_lhs => rw [← hsplit]
      simp
    have hlength := hbehind.length_le
    rw [hflatten, List.length_append] at hlength
    exact List.eq_nil_of_length_eq_zero (by omega)
  have hlines : s.client.lines ≠ [] := by
    intro hnil
    exact hne (by rw [hmessages, hnil, List.map_nil])
  have hcstr : cstr (s.client.lines.getLast hlines) = [] := by
    rw [← hlast]
    simp only [hmessages, List.getLast_map]
  exact ⟨s.client.lines.getLast hlines, List.getLast?_eq_some_getLast hlines,
    head?_of_cstr_eq_nil (h.lines _ (List.getLast_mem hlines)) hcstr⟩

/-- While nothing fails a session that stands still is over: the whole input was read, each line
was sent up to its NUL and answered with one reply, and all of it has been sent back, of which the
replies are the beginning.  Or the last line began with a NUL, so that nothing was sent for it, and
the client waits for an answer with everything before it answered in full. -/
theorem completes (hs : (session k).ReachableUnder (· = Session.start k text)
    (fun s a => s.works a = true) s) (hstuck : ∀ a, s.works a = true → s.next k a = none) :
    (s.client.pc = .closed ∧ s.server.pc = .zombie ∧ s.client.lines.flatten = text ∧
      s.client.messages = s.client.lines.map cstr ∧
      s.client.replies.length = s.client.lines.length ∧
      s.server.sent = s.client.messages.flatten ∧
      s.client.replies.flatten <+: s.server.sent) ∨
    (s.client.pc = .recv ∧ s.server.pc = .recv ∧
      s.client.replies.flatten = s.client.messages.flatten ∧
      ∃ line, s.client.lines.getLast? = some line ∧ line.head? = some 0) := by
  obtain ⟨he, h⟩ := live hs
  have hkept := h.kept
  rcases client_stuck hstuck with hclosed | ⟨hrecv, htoClient, hserving⟩
  · have hzombie : s.server.pc = .zombie := by
      rcases server_stuck hstuck with hzombie | hreaped | ⟨-, -, hopen⟩
      · exact hzombie
      · exact absurd hreaped h.notReaped
      · exact absurd hclosed hopen
    have hmessages : s.client.messages = s.client.lines.map cstr := by
      simpa [hclosed, ClientPc.waiting] using h.messages
    have hcounts := h.counts
    have htyped := he.typed
    rw [h.eof hclosed, List.append_nil] at htyped
    have hempty := (h.ended (by rw [hzombie]; rfl)).1
    have htoServer := he.toServer
    refine .inl ⟨hclosed, hzombie, htyped, hmessages, ?_, ?_, ?_⟩
    · simpa [hclosed, hmessages] using hcounts
    · rw [← htoServer, hempty, ← hkept]
      simp [hzombie, ChildPc.unsent]
    · rw [← he.toClient]
      exact List.prefix_append _ _
  · have hpc : s.server.pc = .recv ∧ s.toServer = [] := by
      rcases server_stuck hstuck with hzombie | hreaped | ⟨hpc, hempty, -⟩
      · simp [Child.serving, Child.running, hzombie] at hserving
      · exact absurd hreaped h.notReaped
      · exact ⟨hpc, hempty⟩
    have hreplies : s.client.replies.flatten = s.client.messages.flatten := by
      rw [← he.toServer, hpc.2, ← hkept, ← he.toClient, htoClient]
      simp [hpc.1, ChildPc.unsent]
    exact .inr ⟨hrecv, hpc.1, hreplies, h.last_line hrecv hreplies⟩

/-- Neither can go on behind the end. -/
theorem next_eq_none (hclient : s.client.pc = .closed) (hserver : s.server.pc = .zombie)
    (a : Session.Input) : s.next k a = none := by
  cases a with
  | client r => cases r <;> simp [Session.next, Client.next, hclient]
  | server r => cases r <;> simp [Session.next, Child.next, Child.running, hserver]

/-- One line, which comes back whole. -/
theorem completes_line : ∃ s ∈ (session 0).run (fun s a => s.works a)
      (Session.start 0 [104, 10]) [.client .done, .client (.taken 2), .server .done,
        .server (.block [104, 10]), .server (.taken 2), .client (.block [104, 10]), .client .done,
        .server .nothing, .server .done, .server .done],
    s.client.replies.length = s.client.lines.length := by
  obtain ⟨s, hrun, hs, hclient, hserver⟩ :=
    (Machine.ReachableUnder.start (M := session 0) rfl : (session 0).ReachableUnder
      (· = Session.start 0 [104, 10]) (fun s a => s.works a = true) _).exists_run
      (fun _ _ h => h) (fun s => s.client.pc = .closed ∧ s.server.pc = .zombie)
      (by decide +kernel : ((session 0).run (fun s a => s.works a) (Session.start 0 [104, 10])
        [.client .done, .client (.taken 2), .server .done, .server (.block [104, 10]),
          .server (.taken 2), .client (.block [104, 10]), .client .done, .server .nothing,
          .server .done, .server .done]).any _ = true)
  refine ⟨s, hrun, ?_⟩
  rcases completes hs (fun a _ => next_eq_none hclient hserver a) with
    ⟨-, -, -, -, hreplies, -⟩ | ⟨hrecv, -⟩
  · exact hreplies
  · rw [hclient] at hrecv
    cases hrecv

/-! ### The number of calls -/

def ClientPc.rank : ClientPc → Nat
  | .fgets => 1
  | .send buffer => 3 + 2 * buffer.length
  | .recv => 2
  | .closed => 0

def ChildPc.rank : ChildPc → Nat
  | .closeServer | .send _ => 4
  | .recv => 3
  | .close => 2
  | .exit => 1
  | .zombie | .reaped => 0

/-- Every byte of the input is read, sent, received and sent back at most once. -/
def Session.rank (s : Session) : Nat :=
  5 * s.client.stdin.length + s.client.pc.rank + 2 * s.toServer.length + s.server.pc.rank

theorem client_rank_lt {r : Result} (hnext : s.client.next r = some client') :
    5 * client'.stdin.length + client'.pc.rank + 2 * (r.given s.client.pc.message).length <
      5 * s.client.stdin.length + s.client.pc.rank := by
  cases Client.does hnext with
  | read line rest hpc hinput hfgets hresult =>
      subst hinput hresult
      have hline := List.length_pos_iff.mpr (fgets_ne_nil (by decide) hfgets)
      have hcstr : (cstr line).length ≤ line.length := (List.takeWhile_prefix _).length_le
      simp only [hpc, ClientPc.rank, Result.given, List.length_nil, ← fgets_append hfgets,
        List.length_append]
      omega
  | eof hpc hinput hstdin hresult =>
      subst hinput hresult
      simp [Client.leave, hpc, ClientPc.rank, Result.given]
  | sent buffer hpc hinput hresult =>
      subst hinput hresult
      simp only [hpc, ClientPc.rank, ClientPc.message, Result.given, List.take_length]
      omega
  | cut buffer n hpc hinput hlt hresult =>
      subst hinput hresult
      simp only [hpc, ClientPc.rank, ClientPc.message, Result.given, Client.leave,
        List.length_take]
      omega
  | printed data hpc hinput hne hresult =>
      subst hinput hresult
      simp [hpc, ClientPc.rank, Result.given]
  | failed hpc hinput hresult =>
      subst hresult
      have hgiven : r.given s.client.pc.message = [] := by
        rcases hinput with rfl | rfl | rfl <;> rfl
      have hrank : 0 < s.client.pc.rank := by
        cases h : s.client.pc with
        | fgets | recv => exact Nat.succ_pos _
        | send buffer => exact Nat.lt_add_right _ (by decide)
        | closed => exact absurd h hpc
      rw [hgiven]
      simp only [Client.leave, List.length_nil]
      exact Nat.add_lt_add_left hrank _

theorem server_rank_lt {r : Result} {c : Child} (hpre : r.received <+: s.toServer)
    (hnext : s.server.next k r = some c) :
    2 * (s.toServer.drop r.received.length).length + c.pc.rank <
      2 * s.toServer.length + s.server.pc.rank := by
  have hlength := hpre.length_le
  rw [List.length_drop]
  cases Child.does hnext with
  | opened hpc hinput hresult =>
      subst hinput hresult
      simp [hpc, ChildPc.rank, Result.received]
  | got data hpc hinput hne hresult =>
      subst hinput hresult
      have hdata := List.length_pos_iff.mpr hne
      simp only [hpc, ChildPc.rank, Result.received] at hlength ⊢
      omega
  | ended hpc hinput hresult =>
      subst hinput hresult
      simp [hpc, ChildPc.rank, Result.received]
  | sent buffer n hpc hinput hle hresult =>
      subst hinput hresult
      simp [hpc, ChildPc.rank, Result.received]
  | failed buffer hpc hinput hresult =>
      subst hinput hresult
      simp [hpc, ChildPc.rank, Result.received]
  | closed hpc hinput hresult =>
      subst hinput hresult
      simp [hpc, ChildPc.rank, Result.received]
  | exited hpc hinput hresult =>
      subst hinput hresult
      simp [hpc, ChildPc.rank, Child.terminate, Result.received]
  | killed hrunning hinput hresult =>
      subst hinput hresult
      have hrank : 0 < s.server.pc.rank := by
        cases h : s.server.pc <;> simp_all [ChildPc.rank, Child.running]
      exact Nat.add_lt_add_left hrank _

theorem rank_lt {a : Session.Input} (hnext : s.next k a = some s') : s'.rank < s.rank := by
  cases a with
  | client r =>
      obtain ⟨hpre, hnext⟩ := Option.ite_none_right_eq_some.mp hnext
      obtain ⟨client', hclient, rfl⟩ := Option.map_eq_some_iff.mp hnext
      have hlt := client_rank_lt hclient
      simp only [Session.rank, List.length_append]
      omega
  | server r =>
      obtain ⟨hpre, hnext⟩ := Option.ite_none_right_eq_some.mp hnext
      obtain ⟨c, hc, rfl⟩ := Option.map_eq_some_iff.mp hnext
      have hlt := server_rank_lt (List.isPrefixOf_iff_prefix.mp hpre) hc
      simp only [Session.rank]
      omega

/-- No session makes more calls than this, whatever happens. -/
theorem sessionCalls_le {inputs : List Session.Input} {test : Session → Session.Input → Bool}
    (hrun : (session k).run test (Session.start k text) inputs = some s) :
    inputs.length ≤ 5 * text.length + 5 := by
  have hs : (session k).ReachableUnder (· = Session.start k text) (fun s a => test s a = true)
    (Session.start k text) := .start rfl
  have hle := Machine.length_run_le Session.rank hs (fun s a s' _ _ hstep => rank_lt hstep) hrun
  have hstart : (Session.start k text).rank = 5 * text.length + 5 := by
    simp [Session.rank, Session.start, ClientPc.rank, ChildPc.rank]
  omega

theorem sessionCalls_le_line : [Session.Input.client .done, .client (.taken 2)].length ≤
    5 * [(104 : Byte), 10].length + 5 :=
  sessionCalls_le (show (session 0).run (fun _ _ => true) (Session.start 0 [104, 10])
    [.client .done, .client (.taken 2)] = some ⟨⟨.recv, [], [[104, 10]], [[104, 10]], []⟩,
      ⟨true, [0], .closeServer, [], []⟩, [104, 10], []⟩ from rfl)

end TcpEcho
end OperatingSystems
