import Mathlib.Algebra.BigOperators.Group.Finset.Basic
import OperatingSystems.Library.Scanf
import OperatingSystems.Library.StringBuffer
import OperatingSystems.UdpEcho.Network

/-!
# What the clients print

* `echoed` — whatever the network does, a client prints the beginning of a message that was sent
  from its address.
* `answered` — when nothing is lost, every client prints the beginning of its own message.
* `datagramCalls_le` — they make a bounded number of calls, and every run can go on until all of
  them have printed.
-/

namespace OperatingSystems
namespace UdpEcho

variable {α : Type*} [DecidableEq α] {address : Nat → α} {argv : Nat → List Byte}
  {s s' : Network α} {n : Nat}

/-! ### Where a reply comes from -/

/-- The datagram that a client sends. -/
def request (address : Nat → α) (argv : Nat → List Byte) (j : Nat) : Datagram α :=
  ⟨address j, cstr (argv j)⟩

/-- The datagram that the server sends back for it. -/
def echo (address : Nat → α) (argv : Nat → List Byte) (j : Nat) : Datagram α :=
  ⟨address j, (cstr (argv j)).take bufferSize⟩

/-- The line for the message of a client: its first 1023 bytes. -/
def echoLine (argv : Nat → List Byte) (j : Nat) : List Byte :=
  bytes "Reply: " ++ (cstr (argv j)).take (bufferSize - 1) ++ [10]

omit [DecidableEq α] in
theorem replyLine_echo (j : Nat) : replyLine (echo address argv j).data = echoLine argv j := by
  have hnul : 0 ∉ (cstr (argv j)).take (bufferSize - 1) :=
    fun hmem => notMem_cstr _ (List.mem_of_mem_take hmem)
  rw [replyLine, echoLine, echo, List.take_take, Nat.min_eq_left (Nat.sub_le _ _),
    cstr_append_nul hnul]

/-- Every datagram is the message of a client that was started, or its echo. -/
structure Sound (address : Nat → α) (argv : Nat → List Byte) (s : Network α) : Prop where
  requests : ∀ d ∈ s.requests, ∃ j, s.client j ≠ .sendto ∧ d = request address argv j
  server : ∀ d, s.server = .sendto d → ∃ j, s.client j ≠ .sendto ∧ d = echo address argv j
  replies : ∀ d ∈ s.replies, ∃ j, s.client j ≠ .sendto ∧ d = echo address argv j
  printed : ∀ i line, s.client i = .printed line →
    ∃ j, s.client j ≠ .sendto ∧ address j = address i ∧ line = echoLine argv j

namespace Sound

omit [DecidableEq α] in
theorem start : Sound address argv (.start : Network α) :=
  ⟨nofun, nofun, nofun, nofun⟩

omit [DecidableEq α] in
/-- A client goes on. -/
theorem setClient (h : Sound address argv s) {client : Nat} {pc : ClientPc} (hpc : pc ≠ .sendto)
    (hprinted : ∀ line, pc = .printed line →
      ∃ j, s.client j ≠ .sendto ∧ address j = address client ∧ line = echoLine argv j) :
    Sound address argv (s.setClient client pc) := by
  have hstarted : ∀ j, s.client j ≠ .sendto → (s.setClient client pc).client j ≠ .sendto := by
    intro j hj
    by_cases hjc : j = client
    · rw [hjc, Network.setClient_self]
      exact hpc
    · rw [Network.setClient_of_ne s pc hjc]
      exact hj
  refine ⟨fun d hd => ?_, fun d hd => ?_, fun d hd => ?_, fun i line hi => ?_⟩
  · exact (h.requests d hd).imp fun j hj => ⟨hstarted j hj.1, hj.2⟩
  · exact (h.server d hd).imp fun j hj => ⟨hstarted j hj.1, hj.2⟩
  · exact (h.replies d hd).imp fun j hj => ⟨hstarted j hj.1, hj.2⟩
  · by_cases hic : i = client
    · subst hic
      rw [Network.setClient_self] at hi
      exact (hprinted line hi).imp fun j hj => ⟨hstarted j hj.1, hj.2⟩
    · rw [Network.setClient_of_ne s pc hic] at hi
      exact (h.printed i line hi).imp fun j hj => ⟨hstarted j hj.1, hj.2⟩

theorem next {a : Input} (h : Sound address argv s)
    (hnext : s.next address argv a = some s') : Sound address argv s' := by
  cases a with
  | sendMessage client ok =>
      obtain ⟨hpc, hnext⟩ := Option.ite_none_right_eq_some.mp hnext
      cases ok with
      | true =>
          obtain rfl := Option.some.inj hnext
          have hset : Sound address argv (s.setClient client .recvfrom) := h.setClient nofun nofun
          refine ⟨fun d hd => ?_, hset.server, hset.replies, hset.printed⟩
          rcases List.mem_append.mp hd with hold | hnew
          · exact hset.requests d hold
          · exact ⟨client, by simp, List.mem_singleton.mp hnew⟩
      | false =>
          obtain rfl := Option.some.inj hnext
          exact h.setClient nofun nofun
  | receiveReply client datagram =>
      cases datagram with
      | none =>
          obtain ⟨hpc, hnext⟩ := Option.ite_none_right_eq_some.mp hnext
          obtain rfl := Option.some.inj hnext
          exact h.setClient nofun nofun
      | some i =>
          obtain ⟨hpc, hnext⟩ := Option.ite_none_right_eq_some.mp hnext
          obtain ⟨reply, hreply, hnext⟩ := Option.bind_eq_some_iff.mp hnext
          obtain ⟨haddress, hnext⟩ := Option.ite_none_right_eq_some.mp hnext
          obtain rfl := Option.some.inj hnext
          obtain ⟨j, hj, rfl⟩ := h.replies reply (List.mem_of_getElem? hreply)
          have hset : Sound address argv (s.setClient client (.printed (replyLine
              (echo address argv j).data))) :=
            h.setClient nofun fun line hline =>
              ⟨j, hj, haddress, by rw [← ClientPc.printed.inj hline, replyLine_echo]⟩
          exact ⟨hset.requests, hset.server,
            fun d hd => hset.replies d (List.mem_of_mem_eraseIdx hd), hset.printed⟩
  | recvfrom datagram =>
      cases datagram with
      | none =>
          obtain ⟨hpc, hnext⟩ := Option.ite_none_right_eq_some.mp hnext
          obtain rfl := Option.some.inj hnext
          exact ⟨h.requests, nofun, h.replies, h.printed⟩
      | some i =>
          obtain ⟨hpc, hnext⟩ := Option.ite_none_right_eq_some.mp hnext
          obtain ⟨d, hd, rfl⟩ := Option.map_eq_some_iff.mp hnext
          obtain ⟨j, hj, rfl⟩ := h.requests d (List.mem_of_getElem? hd)
          refine ⟨fun d hd => h.requests d (List.mem_of_mem_eraseIdx hd), fun d hd => ?_,
            h.replies, h.printed⟩
          exact ⟨j, hj, (ServerPc.sendto.inj hd).symm⟩
  | sendto ok =>
      simp only [Network.next] at hnext
      split at hnext
      case h_2 => cases hnext
      case h_1 d hpc =>
          cases ok with
          | true =>
              obtain rfl := Option.some.inj hnext
              refine ⟨h.requests, nofun, fun d' hd' => ?_, h.printed⟩
              rcases List.mem_append.mp hd' with hold | hnew
              · exact h.replies d' hold
              · rw [List.mem_singleton.mp hnew]
                exact h.server d hpc
          | false =>
              obtain rfl := Option.some.inj hnext
              exact ⟨h.requests, nofun, h.replies, h.printed⟩
  | loseRequest i =>
      obtain rfl := Option.some.inj hnext
      exact ⟨fun d hd => h.requests d (List.mem_of_mem_eraseIdx hd), h.server, h.replies,
        h.printed⟩
  | loseReply i =>
      obtain rfl := Option.some.inj hnext
      exact ⟨h.requests, h.server, fun d hd => h.replies d (List.mem_of_mem_eraseIdx hd),
        h.printed⟩
  | repeatRequest i =>
      obtain ⟨d, hd, rfl⟩ := Option.map_eq_some_iff.mp hnext
      refine ⟨fun d' hd' => ?_, h.server, h.replies, h.printed⟩
      rcases List.mem_append.mp hd' with hold | hnew
      · exact h.requests d' hold
      · rw [List.mem_singleton.mp hnew]
        exact h.requests d (List.mem_of_getElem? hd)
  | repeatReply i =>
      obtain ⟨d, hd, rfl⟩ := Option.map_eq_some_iff.mp hnext
      refine ⟨h.requests, h.server, fun d' hd' => ?_, h.printed⟩
      rcases List.mem_append.mp hd' with hold | hnew
      · exact h.replies d' hold
      · rw [List.mem_singleton.mp hnew]
        exact h.replies d (List.mem_of_getElem? hd)

end Sound

theorem sound (hs : (network address argv).Reachable (· = .start) s) : Sound address argv s := by
  refine hs.induction (fun s h => ?_) fun s a s' h _ hstep => h.next hstep
  rw [h]
  exact Sound.start

/-- However the datagrams are lost, repeated and mixed, a client prints the first 1023 bytes of a
message that was sent from its own address; of its own one, if the addresses differ. -/
theorem echoed (hs : (network address argv).Reachable (· = .start) s) {i : Nat} {line : List Byte}
    (hline : s.client i = .printed line) :
    ∃ j, s.client j ≠ .sendto ∧ address j = address i ∧
      line = bytes "Reply: " ++ (cstr (argv j)).take 1023 ++ [10] :=
  (sound hs).printed i line hline

/-- Of two clients with one address the second prints the message of the first. -/
theorem echoed_overtaken :
    ∃ s ∈ (network (fun _ => 0) fun i => if i = 0 then bytes "h" else bytes "w").run
        (fun _ _ => true) (.start : Network Nat)
        [.sendMessage 0 true, .sendMessage 1 true, .repeatRequest 0, .recvfrom (some 2),
          .sendto true, .receiveReply 1 (some 0)],
      s.client 1 = .printed (bytes "Reply: h\n") ∧
        ∃ j, s.client j ≠ .sendto ∧ 0 = 0 ∧ bytes "Reply: h\n" = bytes "Reply: " ++
          (cstr (if j = 0 then bytes "h" else bytes "w")).take 1023 ++ [10] := by
  obtain ⟨s, hrun, hs, hline⟩ :=
    (Machine.ReachableUnder.start rfl : (network (fun _ => 0) fun i =>
      if i = 0 then bytes "h" else bytes "w").Reachable (· = (.start : Network Nat)) _).exists_run
      (fun _ _ _ => trivial) (fun s => s.client 1 = .printed (bytes "Reply: h\n"))
      (by decide +kernel : ((network (fun _ => 0) fun i =>
        if i = 0 then bytes "h" else bytes "w").run (fun _ _ => true) (.start : Network Nat)
        [.sendMessage 0 true, .sendMessage 1 true, .repeatRequest 0, .recvfrom (some 2),
          .sendto true, .receiveReply 1 (some 0)]).any _ = true)
  exact ⟨s, hrun, hline, echoed hs hline⟩

/-! ### When nothing is lost -/

/-- Whoever waits has its datagram under way, in one direction or the other. -/
structure Live (address : Nat → α) (argv : Nat → List Byte) (n : Nat) (s : Network α) : Prop where
  unstarted : ∀ i, n ≤ i → s.client i = .sendto
  waiting : ∀ i, s.client i = .recvfrom → request address argv i ∈ s.requests ∨
    s.server = .sendto (echo address argv i) ∨ echo address argv i ∈ s.replies
  clients : ∀ i, s.client i ≠ .failed
  server : s.server ≠ .failed

namespace Live

omit [DecidableEq α] in
theorem start : Live address argv n (.start : Network α) :=
  ⟨fun _ _ => rfl, nofun, nofun, nofun⟩

omit [DecidableEq α] in
/-- What is taken out at one place is what stood there. -/
theorem mem_eraseIdx_or {l : List (Datagram α)} {i : Nat} {d d' : Datagram α}
    (hi : l[i]? = some d') (hd : d ∈ l) : d ∈ l.eraseIdx i ∨ d = d' := by
  by_cases hdd : d = d'
  · exact .inr hdd
  · refine .inl ?_
    obtain ⟨k, hk⟩ := List.getElem?_of_mem hd
    refine List.mem_eraseIdx_iff_getElem?.mpr ⟨k, ?_, hk⟩
    rintro rfl
    exact hdd (Option.some.inj (hk.symm.trans hi))

theorem next (hinj : Set.InjOn address (Set.Iio n)) {a : Input}
    (h : Live address argv n s) (hworks : Works n a = true)
    (hnext : s.next address argv a = some s') : Live address argv n s' := by
  cases a with
  | sendMessage client ok =>
      obtain ⟨hclient, rfl⟩ : client < n ∧ ok = true := by simpa [Works] using hworks
      obtain ⟨hpc, hnext⟩ := Option.ite_none_right_eq_some.mp hnext
      obtain rfl := Option.some.inj hnext
      refine ⟨fun i hi => ?_, fun i hi => ?_, fun i => ?_, h.server⟩
      · exact (Network.setClient_of_ne s _ (by omega)).trans (h.unstarted i hi)
      · by_cases hic : i = client
        · exact .inl (List.mem_append_right _ (by rw [hic]; exact List.mem_singleton_self _))
        · have hold := (Network.setClient_of_ne s ClientPc.recvfrom hic).symm.trans hi
          exact (h.waiting i hold).imp_left (List.mem_append_left _)
      · by_cases hic : i = client
        · simp [hic]
        · exact (Network.setClient_of_ne s _ hic).trans_ne (h.clients i)
  | receiveReply client datagram =>
      cases datagram with
      | none => cases hworks
      | some k =>
          obtain ⟨hpc, hnext⟩ := Option.ite_none_right_eq_some.mp hnext
          obtain ⟨reply, hreply, hnext⟩ := Option.bind_eq_some_iff.mp hnext
          obtain ⟨haddress, hnext⟩ := Option.ite_none_right_eq_some.mp hnext
          obtain rfl := Option.some.inj hnext
          have hlt {i : Nat} (hi : s.client i = .recvfrom) : i < n := by
            by_contra hle
            rw [h.unstarted i (Nat.le_of_not_lt hle)] at hi
            cases hi
          refine ⟨fun i hi => ?_, fun i hi => ?_, fun i => ?_, h.server⟩
          · have hne : i ≠ client := by
              rintro rfl
              exact absurd (hlt hpc) (Nat.not_lt.mpr hi)
            exact (Network.setClient_of_ne s _ hne).trans (h.unstarted i hi)
          · have hic : i ≠ client := by
              rintro rfl
              simp at hi
            have hold := (Network.setClient_of_ne s _ hic).symm.trans hi
            refine (h.waiting i hold).imp_right (Or.imp_right fun hmem => ?_)
            refine (mem_eraseIdx_or hreply hmem).resolve_right ?_
            rintro rfl
            exact hic (hinj (hlt hold) (hlt hpc) haddress)
          · by_cases hic : i = client
            · simp [hic]
            · exact (Network.setClient_of_ne s _ hic).trans_ne (h.clients i)
  | recvfrom datagram =>
      cases datagram with
      | none => cases hworks
      | some k =>
          obtain ⟨hpc, hnext⟩ := Option.ite_none_right_eq_some.mp hnext
          obtain ⟨d, hd, rfl⟩ := Option.map_eq_some_iff.mp hnext
          refine ⟨h.unstarted, fun i hi => ?_, h.clients, nofun⟩
          rcases h.waiting i hi with hmem | hserver | hmem
          · rcases mem_eraseIdx_or hd hmem with hleft | rfl
            · exact .inl hleft
            · exact .inr (.inl rfl)
          · rw [hpc] at hserver
            cases hserver
          · exact .inr (.inr hmem)
  | sendto ok =>
      obtain rfl : ok = true := hworks
      simp only [Network.next] at hnext
      split at hnext
      case h_2 => cases hnext
      case h_1 d hpc =>
          obtain rfl := Option.some.inj hnext
          refine ⟨h.unstarted, fun i hi => ?_, h.clients, nofun⟩
          rcases h.waiting i hi with hmem | hserver | hmem
          · exact .inl hmem
          · rw [hpc] at hserver
            refine .inr (.inr (List.mem_append_right _ ?_))
            rw [← ServerPc.sendto.inj hserver]
            exact List.mem_singleton_self d
          · exact .inr (.inr (List.mem_append_left _ hmem))
  | loseRequest i => cases hworks
  | loseReply i => cases hworks
  | repeatRequest i => cases hworks
  | repeatReply i => cases hworks

end Live

theorem live (hinj : Set.InjOn address (Set.Iio n))
    (hs : (network address argv).ReachableUnder (· = .start) (fun _ a => Works n a = true) s) :
    Sound address argv s ∧ Live address argv n s := by
  refine hs.induction (I := fun s => Sound address argv s ∧ Live address argv n s) (fun s h => ?_)
    fun s a s' ⟨hsound, h⟩ hworks hstep =>
      ⟨hsound.next hstep, h.next hinj hworks hstep⟩
  rw [h]
  exact ⟨Sound.start, Live.start⟩

/-- Where nothing can happen any more, each client has printed its line. -/
theorem printed_of_stuck (hinj : Set.InjOn address (Set.Iio n))
    (hs : (network address argv).ReachableUnder (· = .start) (fun _ a => Works n a = true) s)
    (hstuck : ∀ a, Works n a = true → s.next address argv a = none) {i : Nat} (hi : i < n) :
    s.client i = .printed (echoLine argv i) := by
  obtain ⟨hsound, h⟩ := live hinj hs
  have hserver : s.server = .recvfrom := by
    cases hpc : s.server with
    | recvfrom => rfl
    | sendto d =>
        have hnone := hstuck (.sendto true) rfl
        simp [Network.next, hpc] at hnone
    | failed => exact absurd hpc h.server
  have hrequests : s.requests = [] := by
    have hnone := hstuck (.recvfrom (some 0)) rfl
    simpa [Network.next, hserver] using hnone
  cases hpc : s.client i with
  | sendto =>
      have hnone := hstuck (.sendMessage i true) (by simpa [Works] using hi)
      simp [Network.next, hpc] at hnone
  | recvfrom =>
      rcases h.waiting i hpc with hmem | hsending | hmem
      · rw [hrequests] at hmem
        cases hmem
      · rw [hserver] at hsending
        cases hsending
      · obtain ⟨k, hk⟩ := List.getElem?_of_mem hmem
        have hnone := hstuck (.receiveReply i (some k)) rfl
        simp [Network.next, hpc, hk, echo] at hnone
  | printed line =>
      obtain ⟨j, hj, haddress, rfl⟩ := hsound.printed i line hpc
      have hjn : j < n := by
        by_contra hle
        exact hj (h.unstarted j (Nat.le_of_not_lt hle))
      rw [hinj hjn hi haddress]
  | failed => exact absurd hpc (h.clients i)

/-- When nothing is lost and no two sockets have one address, the programs stand still only when
each client has printed the first 1023 bytes of its own message. -/
theorem answered (hinj : Set.InjOn address (Set.Iio n))
    (hs : (network address argv).ReachableUnder (· = .start) (fun _ a => Works n a = true) s)
    (hstuck : ∀ a, Works n a = true → s.next address argv a = none) {i : Nat} (hi : i < n) :
    s.client i = .printed (bytes "Reply: " ++ (cstr (argv i)).take 1023 ++ [10]) :=
  printed_of_stuck hinj hs hstuck hi

/-- One client. -/
theorem answered_one : ∃ s ∈ (network id fun _ => bytes "h").run (fun _ a => Works 1 a) .start
      [.sendMessage 0 true, .recvfrom (some 0), .sendto true, .receiveReply 0 (some 0)],
    s.client 0 = .printed (bytes "Reply: " ++ (cstr (bytes "h")).take 1023 ++ [10]) := by
  obtain ⟨s, hrun, hs, hclient, hserver, hrequests, hreplies⟩ :=
    (Machine.ReachableUnder.start rfl : (network id fun _ => bytes "h").ReachableUnder
      (· = .start) (fun _ a => Works 1 a = true) _).exists_run (fun _ _ h => h)
      (fun s => (s.client 0 ≠ .sendto ∧ s.client 0 ≠ .recvfrom) ∧ s.server = .recvfrom ∧
        s.requests = [] ∧ s.replies = [])
      (by decide +kernel : ((network id fun _ => bytes "h").run (fun _ a => Works 1 a) .start
        [.sendMessage 0 true, .recvfrom (some 0), .sendto true, .receiveReply 0 (some 0)]).any
        _ = true)
  refine ⟨s, hrun, answered (Function.injective_id.injOn) hs (fun a hworks => ?_) Nat.zero_lt_one⟩
  cases a with
  | sendMessage client ok =>
      obtain ⟨hlt, -⟩ : client < 1 ∧ ok = true := by simpa [Works] using hworks
      obtain rfl : client = 0 := by omega
      simp [Network.next, hclient]
  | receiveReply client datagram =>
      cases datagram with
      | none => cases hworks
      | some i => simp [Network.next, hreplies]
  | recvfrom datagram =>
      cases datagram with
      | none => cases hworks
      | some i => simp [Network.next, hrequests]
  | sendto ok => simp [Network.next, hserver]
  | loseRequest i => cases hworks
  | loseReply i => cases hworks
  | repeatRequest i => cases hworks
  | repeatReply i => cases hworks

/-! ### The number of calls -/

def ServerPc.rank : ServerPc α → Nat
  | .sendto _ => 2
  | _ => 0

def ClientPc.rank : ClientPc → Nat
  | .sendto => 4
  | _ => 0

/-- A message is sent, received, sent back and received. -/
def Network.rank (n : Nat) (s : Network α) : Nat :=
  ∑ i ∈ Finset.range n, (s.client i).rank + 3 * s.requests.length + s.server.rank +
    s.replies.length

omit [DecidableEq α] in
/-- What one client's change makes of the sum. -/
theorem sum_rank_setClient {client : Nat} (pc : ClientPc) (hclient : client < n) :
    ∑ i ∈ Finset.range n, ((s.setClient client pc).client i).rank + (s.client client).rank =
      ∑ i ∈ Finset.range n, (s.client i).rank + pc.rank := by
  have hmem := Finset.mem_range.mpr hclient
  have hothers : ∑ i ∈ (Finset.range n).erase client, ((s.setClient client pc).client i).rank =
      ∑ i ∈ (Finset.range n).erase client, (s.client i).rank := by
    refine Finset.sum_congr rfl fun i hi => ?_
    rw [Network.setClient_of_ne s pc (Finset.ne_of_mem_erase hi)]
  rw [← Finset.add_sum_erase _ _ hmem, ← Finset.add_sum_erase _ (fun i => (s.client i).rank) hmem,
    hothers, Network.setClient_self]
  omega

theorem rank_lt {a : Input} (hworks : Works n a = true)
    (hnext : s.next address argv a = some s') : s'.rank n < s.rank n := by
  cases a with
  | sendMessage client ok =>
      obtain ⟨hclient, rfl⟩ : client < n ∧ ok = true := by simpa [Works] using hworks
      obtain ⟨hpc, hnext⟩ := Option.ite_none_right_eq_some.mp hnext
      obtain rfl := Option.some.inj hnext
      have hsum := sum_rank_setClient (s := s) .recvfrom hclient
      simp only [hpc, ClientPc.rank] at hsum
      simp only [Network.rank, List.length_append, List.length_singleton]
      simp only [ClientPc.rank, Network.setClient] at hsum ⊢
      omega
  | receiveReply client datagram =>
      cases datagram with
      | none => cases hworks
      | some i =>
          obtain ⟨hpc, hnext⟩ := Option.ite_none_right_eq_some.mp hnext
          obtain ⟨reply, hreply, hnext⟩ := Option.bind_eq_some_iff.mp hnext
          obtain ⟨-, hnext⟩ := Option.ite_none_right_eq_some.mp hnext
          obtain rfl := Option.some.inj hnext
          have hlength := (List.getElem?_eq_some_iff.mp hreply).1
          have hsum : ∀ j, ((s.setClient client (.printed (replyLine reply.data))).client j).rank =
              (s.client j).rank := by
            intro j
            by_cases hj : j = client
            · rw [hj, Network.setClient_self, hpc]
              rfl
            · rw [Network.setClient_of_ne s _ hj]
          simp only [Network.rank, hsum, List.length_eraseIdx_of_lt hlength]
          simp only [Network.setClient]
          omega
  | recvfrom datagram =>
      cases datagram with
      | none => cases hworks
      | some i =>
          obtain ⟨hpc, hnext⟩ := Option.ite_none_right_eq_some.mp hnext
          obtain ⟨d, hd, rfl⟩ := Option.map_eq_some_iff.mp hnext
          have hlength := (List.getElem?_eq_some_iff.mp hd).1
          simp only [Network.rank, List.length_eraseIdx_of_lt hlength, hpc, ServerPc.rank]
          omega
  | sendto ok =>
      obtain rfl : ok = true := hworks
      simp only [Network.next] at hnext
      split at hnext
      case h_2 => cases hnext
      case h_1 d hpc =>
          obtain rfl := Option.some.inj hnext
          simp only [Network.rank, hpc, ServerPc.rank, List.length_append, List.length_singleton]
          omega
  | loseRequest i => cases hworks
  | loseReply i => cases hworks
  | repeatRequest i => cases hworks
  | repeatReply i => cases hworks

omit [DecidableEq α] in
theorem rank_start : (Network.start : Network α).rank n = 4 * n := by
  simp only [Network.rank, Network.start, ClientPc.rank, ServerPc.rank, List.length_nil,
    Finset.sum_const_nat (fun _ _ => rfl), Finset.card_range]
  omega

/-- When nothing is lost and no two sockets have one address, the programs make at most four calls
for each client, and every run can go on until each client has printed the first 1023 bytes of its
own message. -/
theorem datagramCalls_le (hinj : Set.InjOn address (Set.Iio n)) {inputs : List Input}
    (hrun : (network address argv).run (fun _ a => Works n a) .start inputs = some s) :
    inputs.length ≤ 4 * n ∧
      ∃ more, ∃ t ∈ (network address argv).run (fun _ a => Works n a) s more,
        ∀ i < n, t.client i = .printed (bytes "Reply: " ++ (cstr (argv i)).take 1023 ++ [10]) := by
  have hstart : (network address argv).ReachableUnder (· = .start) (fun _ a => Works n a = true)
    .start := .start rfl
  have hlower : ∀ (s : Network α) (a : Input) (s' : Network α),
      (network address argv).ReachableUnder (· = .start) (fun _ a => Works n a = true) s →
        Works n a = true → (network address argv).step s a = some s' → s'.rank n < s.rank n :=
    fun _ _ _ _ hworks hstep => rank_lt hworks hstep
  have hle := Machine.length_run_le (Network.rank n) hstart hlower hrun
  rw [rank_start] at hle
  refine ⟨by omega, ?_⟩
  obtain ⟨more, t, hmore, ht, hstuck⟩ :=
    Machine.exists_run_stuck (Network.rank n) (hstart.run (fun _ _ => id) hrun) hlower
  exact ⟨more, t, hmore, fun i hi => printed_of_stuck hinj ht hstuck hi⟩

theorem datagramCalls_le_one :
    let machine := network id fun _ => bytes "h"
    let sent : Network Nat :=
      { (Network.start.setClient 0 .recvfrom) with server := .sendto ⟨0, bytes "h"⟩ }
    [Input.sendMessage 0 true, .recvfrom (some 0)].length ≤ 4 * 1 ∧
      ∃ more, ∃ t ∈ machine.run (fun _ a => Works 1 a) sent more,
        ∀ i < 1, t.client i = .printed (bytes "Reply: " ++ (cstr (bytes "h")).take 1023 ++ [10]) :=
  datagramCalls_le Function.injective_id.injOn rfl

end UdpEcho
end OperatingSystems
