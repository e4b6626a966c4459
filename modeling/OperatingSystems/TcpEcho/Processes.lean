import OperatingSystems.TcpEcho.Server

/-!
# What the processes of the echo server hold

* `Child.Sound`, `Sound` — what a child and the parent hold at each call.
* `processes` — in every run a connection is open where it is served and nowhere else, and a
  terminated child does not stay behind unless its signal is on the way.
-/

namespace OperatingSystems
namespace TcpEcho

variable {s s' : Server} {c c' : Child} {client k : Nat}

/-! ### One child -/

/-- The child has its connection open. -/
def Child.serving (c : Child) : Bool :=
  c.running && c.pc ≠ .exit

/-- What is received and not sent yet. -/
def ChildPc.unsent : ChildPc → List Byte
  | .send buffer => buffer
  | _ => []

/-- A child for the connection `client`. -/
structure Child.Sound (client : Nat) (c : Child) : Prop where
  server : c.server = true ↔ c.pc = .closeServer
  clients : c.clients = if c.serving then [client] else []
  sublist : (c.sent ++ c.pc.unsent).Sublist c.got

/-- What one call of a child does. -/
inductive Child.Does (client : Nat) (c : Child) (r : Result) (c' : Child) : Prop
  | opened (pc : c.pc = .closeServer) (input : r = .done)
      (result : c' = { c with server := false, pc := .recv })
  | got (data : List Byte) (pc : c.pc = .recv) (input : r = .block data) (ne : data ≠ [])
      (result : c' = { c with pc := .send data, got := c.got ++ data })
  | ended (pc : c.pc = .recv) (input : r = .nothing) (result : c' = { c with pc := .close })
  | sent (buffer : List Byte) (n : Nat) (pc : c.pc = .send buffer) (input : r = .taken n)
      (le : n ≤ buffer.length)
      (result : c' = { c with pc := .recv, sent := c.sent ++ buffer.take n })
  | failed (buffer : List Byte) (pc : c.pc = .send buffer) (input : r = .failed)
      (result : c' = { c with pc := .close })
  | closed (pc : c.pc = .close) (input : r = .done)
      (result : c' = { c with clients := c.clients.erase client, pc := .exit })
  | exited (pc : c.pc = .exit) (input : r = .done) (result : c' = c.terminate)
  | killed (running : c.running = true) (input : r = .killed) (result : c' = c.terminate)

theorem Child.does {r : Result} (h : c.next client r = some c') : c.Does client r c' := by
  unfold Child.next at h
  split at h
  case h_1 hpc => exact .opened hpc rfl (Option.some.inj h).symm
  case h_2 data hpc =>
      obtain ⟨⟨hne, -⟩, h⟩ := Option.ite_none_right_eq_some.mp h
      exact .got data hpc rfl hne (Option.some.inj h).symm
  case h_3 hpc => exact .ended hpc rfl (Option.some.inj h).symm
  case h_4 buffer n hpc =>
      obtain ⟨hle, h⟩ := Option.ite_none_right_eq_some.mp h
      exact .sent buffer n hpc rfl hle (Option.some.inj h).symm
  case h_5 buffer hpc => exact .failed buffer hpc rfl (Option.some.inj h).symm
  case h_6 hpc => exact .closed hpc rfl (Option.some.inj h).symm
  case h_7 hpc => exact .exited hpc rfl (Option.some.inj h).symm
  case h_8 =>
      obtain ⟨hrunning, h⟩ := Option.ite_none_right_eq_some.mp h
      exact .killed hrunning rfl (Option.some.inj h).symm
  case h_9 => cases h

theorem Child.Sound.start (client : Nat) :
    Child.Sound client ⟨true, [client], .closeServer, [], []⟩ :=
  ⟨by simp, rfl, List.Sublist.refl _⟩

/-- The loop is left with the connection still open. -/
theorem Child.Sound.leave (h : c.Sound client) (hserving : c.serving = true)
    (hserver : c.pc ≠ .closeServer) : Child.Sound client { c with pc := .close } := by
  refine ⟨by simpa [hserver] using h.server, ?_, ?_⟩
  · rw [h.clients, if_pos hserving]
    rfl
  · simpa [ChildPc.unsent] using (List.sublist_append_left _ _).trans h.sublist

theorem Child.Sound.terminate (h : c.Sound client) : Child.Sound client c.terminate := by
  refine ⟨by simp [Child.terminate], rfl, ?_⟩
  simpa [Child.terminate, ChildPc.unsent] using (List.sublist_append_left _ _).trans h.sublist

theorem Child.Sound.next {r : Result} (h : c.Sound client) (hnext : c.next client r = some c') :
    c'.Sound client := by
  have hkept : c.sent.Sublist c.got := (List.sublist_append_left _ _).trans h.sublist
  cases Child.does hnext with
  | opened hpc hinput hresult =>
      subst hresult
      refine ⟨by simp, ?_, by simpa [ChildPc.unsent] using hkept⟩
      simpa [Child.serving, Child.running, hpc] using h.clients
  | got data hpc hinput hne hresult =>
      subst hresult
      refine ⟨by simpa [hpc] using h.server, ?_, by simpa [ChildPc.unsent] using hkept⟩
      simpa [Child.serving, Child.running, hpc] using h.clients
  | ended hpc hinput hresult =>
      subst hresult
      exact h.leave (by simp [Child.serving, Child.running, hpc]) (by simp [hpc])
  | sent buffer n hpc hinput hle hresult =>
      subst hresult
      refine ⟨by simpa [hpc] using h.server, ?_, ?_⟩
      · simpa [Child.serving, Child.running, hpc] using h.clients
      · have hall : (c.sent ++ buffer).Sublist c.got := by
          simpa [hpc, ChildPc.unsent] using h.sublist
        simpa [ChildPc.unsent] using
          ((List.take_sublist n buffer).append_left c.sent).trans hall
  | failed buffer hpc hinput hresult =>
      subst hresult
      exact h.leave (by simp [Child.serving, Child.running, hpc]) (by simp [hpc])
  | closed hpc hinput hresult =>
      subst hresult
      refine ⟨by simpa [hpc] using h.server, ?_, by simpa [ChildPc.unsent] using hkept⟩
      have hclients : c.clients = [client] := by
        simpa [Child.serving, Child.running, hpc] using h.clients
      simp [hclients, Child.serving]
  | exited hpc hinput hresult =>
      subst hresult
      exact h.terminate
  | killed hrunning hinput hresult =>
      subst hresult
      exact h.terminate

/-! ### All processes -/

/-- What the parent has open besides its listening socket. -/
def Pc.clients : Pc → List Nat
  | .accept => []
  | .fork client | .close client => [client]

structure Sound (s : Server) : Prop where
  parent : s.clients = s.pc.clients
  unborn : ∀ k, s.pc = .fork k → k < s.accepted ∧ s.child k = none
  born : ∀ k c, s.child k = some c → k < s.accepted
  children : ∀ k c, s.child k = some c → c.Sound k
  attended : ∀ k c, s.child k = some c → c.pc = .zombie → s.pending = true ∨ s.handler = true

theorem Sound.start (h : Starts s) : Sound s := by
  obtain ⟨hpc, -, hclients, -, hchild⟩ := h
  have hnone : ∀ k c, s.child k ≠ some c := fun k c hc => by simp [hchild] at hc
  exact ⟨by rw [hclients, hpc]; rfl, fun k hk => by simp [hpc] at hk,
    fun k c hc => absurd hc (hnone k c), fun k c hc => absurd hc (hnone k c),
    fun k c hc => absurd hc (hnone k c)⟩

/-- One child changes. -/
theorem Sound.setChild (h : Sound s) (hlt : client < s.accepted) (hfork : s.pc ≠ .fork client)
    (hsound : c.Sound client) (hattended : c.pc = .zombie → s.pending = true ∨ s.handler = true) :
    Sound (s.setChild client c) := by
  have hchild : ∀ k d, (s.setChild client c).child k = some d →
      k = client ∧ d = c ∨ s.child k = some d := by
    intro k d hd
    by_cases hk : k = client
    · subst hk
      rw [Server.setChild_child_self] at hd
      exact .inl ⟨rfl, (Option.some.inj hd).symm⟩
    · rw [Server.setChild_child_of_ne s c hk] at hd
      exact .inr hd
  refine ⟨h.parent, fun k hk => ?_, fun k d hd => ?_, fun k d hd => ?_, fun k d hd hzombie => ?_⟩
  · have hne : k ≠ client := by
      rintro rfl
      exact hfork hk
    rw [Server.setChild_child_of_ne s c hne]
    exact h.unborn k hk
  · rcases hchild k d hd with ⟨rfl, -⟩ | hd
    · exact hlt
    · exact h.born k d hd
  · rcases hchild k d hd with ⟨rfl, rfl⟩ | hd
    · exact hsound
    · exact h.children k d hd
  · rcases hchild k d hd with ⟨rfl, rfl⟩ | hd
    · exact hattended hzombie
    · exact h.attended k d hd hzombie

theorem Sound.ne_fork (h : Sound s) (hc : s.child client = some c) : s.pc ≠ .fork client := by
  intro hpc
  rw [(h.unborn client hpc).2] at hc
  cases hc

/-- A child makes a call. -/
theorem Sound.childStep {r : Result} (h : Sound s) (hstep : s.childStep client r = some s') :
    Sound s' := by
  obtain ⟨c, hc, hstep⟩ := Option.bind_eq_some_iff.mp hstep
  obtain ⟨c', hc', rfl⟩ := Option.map_eq_some_iff.mp hstep
  have hraised : Sound { s with pending := s.pending || c'.pc = .zombie } := by
    refine ⟨h.parent, h.unborn, h.born, h.children, fun k d hd hzombie => ?_⟩
    rcases h.attended k d hd hzombie with hpending | hhandler
    · simp [hpending]
    · exact .inr hhandler
  exact hraised.setChild (h.born client c hc) (h.ne_fork hc) ((h.children client c hc).next hc')
    fun hzombie => by simp [hzombie]

theorem Sound.accept {ok : Bool} (h : Sound s) (hstep : s.next (.accept ok) = some s') :
    Sound s' := by
  obtain ⟨⟨-, hpc⟩, hstep⟩ := Option.ite_none_right_eq_some.mp hstep
  obtain rfl := Option.some.inj hstep
  have hclients : s.clients = [] := by rw [h.parent, hpc]; rfl
  cases ok with
  | false => exact h
  | true =>
      refine ⟨by simp [hclients, Pc.clients], fun k hk => ?_, fun k c hc => ?_, h.children,
        h.attended⟩
      · obtain rfl : s.accepted = k := Pc.fork.inj hk
        refine ⟨Nat.lt_succ_self _, ?_⟩
        cases hchild : s.child s.accepted with
        | none => exact hchild
        | some c => exact absurd (h.born _ c hchild) (lt_irrefl _)
      · exact (h.born k c hc).trans (Nat.lt_succ_self _)

/-- The new child has what its parent has: the listening socket and the new connection. -/
theorem Sound.fork {ok : Bool} (h : Sound s) (hstep : s.next (.fork ok) = some s') : Sound s' := by
  simp only [Server.next] at hstep
  split at hstep
  case h_2 => cases hstep
  case h_1 client hpc =>
      obtain ⟨-, hstep⟩ := Option.ite_none_left_eq_some.mp hstep
      have hlt := (h.unborn client hpc).1
      have hclients : s.clients = [client] := by rw [h.parent, hpc]; rfl
      have hclose : Sound { s with pc := .close client } :=
        ⟨hclients, fun k hk => by simp at hk, h.born, h.children, h.attended⟩
      cases ok with
      | false =>
          obtain rfl := Option.some.inj hstep
          exact hclose
      | true =>
          obtain rfl := Option.some.inj hstep
          rw [hclients]
          exact hclose.setChild hlt (by simp) (Child.Sound.start client) (by simp)

theorem Sound.close (h : Sound s) (hstep : s.next .close = some s') : Sound s' := by
  simp only [Server.next] at hstep
  split at hstep
  case h_2 => cases hstep
  case h_1 client hpc =>
      obtain ⟨-, hstep⟩ := Option.ite_none_left_eq_some.mp hstep
      obtain rfl := Option.some.inj hstep
      have hclients : s.clients = [client] := by rw [h.parent, hpc]; rfl
      exact ⟨by simp [hclients, Pc.clients], fun k hk => by simp at hk, h.born, h.children,
        h.attended⟩

/-- `waitpid` takes a zombie, or finds that there is none. -/
theorem Sound.waitpid {child : Option Nat} (h : Sound s)
    (hstep : s.next (.waitpid child) = some s') : Sound s' := by
  cases child with
  | some client =>
      simp only [Server.next] at hstep
      split at hstep
      case h_2 => cases hstep
      case h_1 c hc =>
          obtain ⟨⟨-, hzombie⟩, hstep⟩ := Option.ite_none_right_eq_some.mp hstep
          obtain rfl := Option.some.inj hstep
          have hsound := h.children client c hc
          refine h.setChild (h.born client c hc) (h.ne_fork hc) ⟨?_, ?_, ?_⟩ (by simp)
          · simpa [hzombie] using hsound.server
          · simpa [hzombie, Child.serving, Child.running] using hsound.clients
          · simpa [hzombie, ChildPc.unsent] using hsound.sublist
  | none =>
      obtain ⟨⟨-, hnone⟩, hstep⟩ := Option.ite_none_right_eq_some.mp hstep
      obtain rfl := Option.some.inj hstep
      refine ⟨h.parent, h.unborn, h.born, h.children, fun k c hc hzombie => ?_⟩
      have hno := List.any_eq_false.mp hnone k (List.mem_range.mpr (h.born k c hc))
      rw [show s.child k = some c from hc] at hno
      simp [hzombie] at hno

theorem sound (hs : forkServer.Reachable Starts s) : Sound s := by
  refine hs.induction (fun s => Sound.start) fun s a s' h _ hstep => ?_
  cases a with
  | accept ok => exact h.accept hstep
  | fork ok => exact h.fork hstep
  | close => exact h.close hstep
  | deliver =>
      obtain ⟨-, hstep⟩ := Option.ite_none_right_eq_some.mp hstep
      obtain rfl := Option.some.inj hstep
      exact ⟨h.parent, h.unborn, h.born, h.children, fun _ _ _ _ => .inr rfl⟩
  | waitpid child => exact h.waitpid hstep
  | child client r => exact h.childStep hstep

/-- Some process has the connection open. -/
def Server.OpenIn (s : Server) (k : Nat) : Prop :=
  k ∈ s.clients ∨ ∃ j c, s.child j = some c ∧ k ∈ c.clients

/-- A connection is open in the parent from its `accept` to the `close` behind the `fork`, and in
its own child until the child closes it or ends, and in no other process.  A child has the listening
socket open until its first call only.  When neither the signal is pending nor its handler runs,
every child that has ended has been waited for. -/
theorem processes (hs : forkServer.Reachable Starts s) :
    (∀ k, s.OpenIn k ↔ s.pc = .fork k ∨ s.pc = .close k ∨
      ∃ c, s.child k = some c ∧ c.serving = true) ∧
    (∀ k c, s.child k = some c → (c.server = true ↔ c.pc = .closeServer)) ∧
    (s.pending = false → s.handler = false → ∀ k c, s.child k = some c →
      c.running = true ∨ c.pc = .reaped) := by
  have h := sound hs
  refine ⟨fun k => ?_, fun k c hc => (h.children k c hc).server, fun hpending hhandler k c hc => ?_⟩
  · have hparent : k ∈ s.clients ↔ s.pc = .fork k ∨ s.pc = .close k := by
      rw [h.parent]
      cases s.pc <;> simp [Pc.clients, eq_comm]
    have hchild : (∃ j c, s.child j = some c ∧ k ∈ c.clients) ↔
        ∃ c, s.child k = some c ∧ c.serving = true := by
      constructor
      · rintro ⟨j, c, hc, hmem⟩
        rw [(h.children j c hc).clients] at hmem
        split at hmem
        case isTrue hserving =>
            obtain rfl := List.mem_singleton.mp hmem
            exact ⟨c, hc, hserving⟩
        case isFalse => cases hmem
      · rintro ⟨c, hc, hserving⟩
        refine ⟨k, c, hc, ?_⟩
        rw [(h.children k c hc).clients, if_pos hserving]
        exact List.mem_singleton_self k
    rw [Server.OpenIn, hparent, hchild, or_assoc]
  · by_cases hreaped : c.pc = .reaped
    · exact .inr hreaped
    · refine .inl ?_
      by_contra hrunning
      have hzombie : c.pc = .zombie := by simpa [Child.running, hreaped] using hrunning
      rcases h.attended k c hc hzombie with htrue | htrue
      · rw [hpending] at htrue
        cases htrue
      · rw [hhandler] at htrue
        cases htrue

/-- The parent has closed the first connection, and its child serves it. -/
theorem processes_fork : ∃ s ∈ forkServer.run (fun _ _ => true)
      ⟨.accept, false, false, [], 0, fun _ => none⟩ [.accept true, .fork true, .close],
    s.OpenIn 0 ∧ 0 ∉ s.clients := by
  obtain ⟨s, hrun, hs, hclients, hserving⟩ :=
    (Machine.ReachableUnder.start (M := forkServer) ⟨rfl, rfl, rfl, rfl, fun _ => rfl⟩ :
      forkServer.Reachable Starts _).exists_run (fun _ _ _ => trivial)
      (fun s => 0 ∉ s.clients ∧ (s.child 0).any (·.serving) = true)
      (by decide +kernel : (forkServer.run (fun _ _ => true)
        ⟨.accept, false, false, [], 0, fun _ => none⟩
        [.accept true, .fork true, .close]).any _ = true)
  obtain ⟨c, hc, hserving⟩ := (Option.any_eq_true _ _).mp hserving
  exact ⟨s, hrun, ((processes hs).1 0).mpr (.inr (.inr ⟨c, hc, hserving⟩)), hclients⟩

end TcpEcho
end OperatingSystems
