import Mathlib.Tactic.FinCases
import SimpleVpn.Forgery
import SimpleVpn.Tokens

/-!
# What becomes of the datagrams in flight

Receptions from any state, in any order: with nested and malformed datagrams in
flight, forwarding from node to node and of a node to itself, and whatever the
header classes of the simulator make of them. Nothing is sent in the meantime,
and the adversary keeps quiet. Where a handler faults there is no step, and the
datagram stays in flight.

* Every run comes to an end, where no node can receive anything (`settles`).
* If no two nodes listen at the same address and port, the order of receptions
  does not matter (`settles_alike`): the datagrams in flight are tokens that go
  their own ways, each determined by its bytes. In particular a packet nested in
  others is delivered in the end (`nested_arrives`).
-/

namespace SimpleVpn

open Exec AES VPNApplication Transition

variable {ι : Type}

/-- Receptions from a state, each shown as the node and what its handler does. -/
def receptions (ns3 : Ns3) (net : Network ι) (s₀ : State ι) : System (State ι) (ι × Event) where
  init := s₀
  step s o s' := ∃ i d l₁ l₂ events, (Action.receive i d l₁ l₂ events).Enabled ns3 net s ∧
    o = events.head?.map (Prod.mk i) ∧ s' = (Action.receive i d l₁ l₂ events).after s

/-- No two nodes listen at one address and port. -/
def Network.Sole (net : Network ι) : Prop :=
  ∀ {i j : ι} {address : Ipv4Address} {port : UInt16}, net.Listens i address port →
    net.Listens j address port → i = j

/-- The datagram that an event puts in flight. -/
def Event.sent : Event → Option Datagram
  | .sendTo packet address port => some ⟨packet, address, port⟩
  | .tapReceive _ _ => none

/-- The packet that an event delivers. -/
def Event.tapped : Event → Option Bytes
  | .sendTo _ _ _ => none
  | .tapReceive packet _ => some packet

theorem sends_singleton (event : Event) : sends [event] = event.sent.toList := by
  cases event <;> rfl

variable {ns3 : Ns3} {net : Network ι} {s s' s₀ : State ι} {es : List (ι × Event)}

/-- A reception makes one event. -/
theorem receivePacket_single {app : VPNApplication} {payload : Bytes} {events : List Event}
    (hrun : app.receivePacket ns3 payload = .ok events) : ∃ event, events = [event] := by
  rcases receivePacket_inv hrun with ⟨rfl, -⟩ | ⟨packet, address, port, rfl, -⟩
  · exact ⟨_, rfl⟩
  · exact ⟨_, rfl⟩

/-- What one reception can be: some node listens where a datagram in flight is
sent to, and its handler makes one event of it. -/
theorem receptions_step {o : Option (ι × Event)} (h : (receptions ns3 net s₀).step s o s') :
    ∃ i d l₁ l₂ event, s.inFlight = l₁ ++ d :: l₂ ∧ net.Listens i d.address d.port ∧
      (net.app i).receivePacket ns3 d.payload = .ok [event] ∧ o = some (i, event) ∧
      s' = { s with
        inFlight := event.sent.toList ++ (l₁ ++ l₂)
        forwarded := (event.sent.map Datagram.payload).toList ++ s.forwarded
        delivered := (event.tapped.map (Prod.mk i)).toList ++ s.delivered } := by
  obtain ⟨i, d, l₁, l₂, events, ⟨hflight, hlisten, hrun⟩, rfl, rfl⟩ := h
  obtain ⟨event, rfl⟩ := receivePacket_single hrun
  refine ⟨i, d, l₁, l₂, event, hflight, hlisten, hrun, rfl, ?_⟩
  cases event <;> rfl

/-! ## Runs come to an end -/

/-- A reception takes the 64 bytes of a header out of flight. -/
theorem receptions_bytes {o : Option (ι × Event)} (h : (receptions ns3 net s₀).step s o s') :
    bytesOf s'.inFlight + 64 * o.toList.length ≤ bytesOf s.inFlight := by
  obtain ⟨i, d, l₁, l₂, event, hflight, -, hrun, rfl, rfl⟩ := receptions_step h
  have hbytes := bytes_receivePacket hrun
  rw [sends_singleton] at hbytes
  rw [hflight, bytesOf_middle, bytesOf_append, Option.toList_some, List.length_singleton]
  omega

/-- A run can be continued until no node can receive anything. -/
theorem exists_stuck (hrun : (receptions ns3 net s₀).Trace es s) :
    ∃ es' s', (receptions ns3 net s₀).Trace (es ++ es') s' ∧
      (receptions ns3 net s₀).Stuck s' := by
  refine hrun.complete (fun s => bytesOf s.inFlight) fun s o s' hstep => ?_
  have hbytes := receptions_bytes hstep
  obtain ⟨i, d, l₁, l₂, event, -, -, -, rfl, -⟩ := receptions_step hstep
  rw [Option.toList_some, List.length_singleton] at hbytes
  omega

/-- **Every run of receptions settles.** It has at most one reception for 64
bytes in flight, and can be continued until no node can receive anything. -/
theorem settles (hrun : (receptions ns3 net s₀).Trace es s) :
    bytesOf s.inFlight + 64 * es.length ≤ bytesOf s₀.inFlight ∧
      ∃ es' s', (receptions ns3 net s₀).Trace (es ++ es') s' ∧
        (receptions ns3 net s₀).Stuck s' := by
  refine ⟨?_, exists_stuck hrun⟩
  refine hrun.inv (fun es s => bytesOf s.inFlight + 64 * es.length ≤ bytesOf s₀.inFlight)
    (Nat.le_refl _) ?_
  intro es s o s' ih hstep
  have hbytes := receptions_bytes hstep
  rw [List.length_append]
  omega

/-- A sealed packet on its way to node 1. -/
def toNode1 (packet : Bytes) : Datagram := ⟨sealBytes zeroKey ++ packet, 0xc0a80001, 50000⟩

/-- Two datagrams for node 1, of which the first holds another one. -/
def crossing : State (Fin 2) where
  inFlight := [toNode1 (nestedPacket (toNode1 (plainPacket [0x61])).payload),
    toNode1 (plainPacket [0x62])]

theorem settles_crossing : ∃ es s, (receptions wire twoNodes crossing).Trace es s ∧
    (receptions wire twoNodes crossing).Stuck s := by
  obtain ⟨-, es, s, hrun, hend⟩ :=
    settles (.nil : (receptions wire twoNodes crossing).Trace [] crossing)
  exact ⟨es, s, hrun, hend⟩

/-! ## The order does not matter -/

/-- Node `x.1` receives a datagram, and its handler does `x.2`. -/
def Received (ns3 : Ns3) (net : Network ι) (d : Datagram) (x : ι × Event) : Prop :=
  net.Listens x.1 d.address d.port ∧ (net.app x.1).receivePacket ns3 d.payload = .ok [x.2]

/-- One node at most listens, and its handler is a function. -/
theorem Received.unique (hsole : net.Sole) {d : Datagram} {x y : ι × Event}
    (hx : Received ns3 net d x) (hy : Received ns3 net d y) : x = y := by
  obtain ⟨i, event⟩ := x
  obtain ⟨j, event'⟩ := y
  obtain rfl : i = j := hsole hx.1 hy.1
  have hevents := Except.ok.inj (hx.2.symm.trans hy.2)
  exact Prod.ext rfl (List.cons.inj hevents).1

open Classical in
/-- What becomes of a datagram: who receives it, what the handler does, and what
is in flight after that. -/
noncomputable def reception (ns3 : Ns3) (net : Network ι) (d : Datagram) :
    Option ((ι × Event) × Option Datagram) :=
  if h : ∃ x, Received ns3 net d x then some (h.choose, h.choose.2.sent) else none

theorem reception_eq (hsole : net.Sole) {d : Datagram} {x : ι × Event}
    (h : Received ns3 net d x) : reception ns3 net d = some (x, x.2.sent) := by
  have hex : ∃ x, Received ns3 net d x := ⟨x, h⟩
  rw [reception, dif_pos hex, hex.choose_spec.unique hsole h]

theorem received_of_reception {d : Datagram} {x : ι × Event} {left : Option Datagram}
    (h : reception ns3 net d = some (x, left)) : Received ns3 net d x ∧ left = x.2.sent := by
  rw [reception] at h
  split at h
  · rename_i hex
    obtain ⟨rfl, rfl⟩ := Prod.mk.inj (Option.some.inj h)
    exact ⟨hex.choose_spec, rfl⟩
  · cases h

/-- The datagrams in flight as tokens: what is sent on is shorter. -/
noncomputable def datagrams (ns3 : Ns3) (net : Network ι) : Tokens Datagram (ι × Event) where
  next := reception ns3 net
  size d := d.payload.length
  next_lt := by
    intro d x d' h
    obtain ⟨⟨-, hrun⟩, hleft⟩ := received_of_reception h
    have hbytes := bytes_receivePacket hrun
    rw [sends_singleton, ← hleft] at hbytes
    have hone : bytesOf (some d').toList = d'.payload.length := rfl
    omega

/-- Receptions move the tokens. -/
theorem receptions_tokens (ns3 : Ns3) (hsole : net.Sole) (s₀ : State ι) :
    Simulation (receptions ns3 net s₀) ((datagrams ns3 net).bag s₀.inFlight)
      fun s b => (s.inFlight : Multiset Datagram) = b where
  init := rfl
  step := by
    rintro s b o s' rfl hstep
    obtain ⟨i, d, l₁, l₂, event, hflight, hlisten, hrun, rfl, rfl⟩ := receptions_step hstep
    have hnext := reception_eq hsole (x := (i, event)) ⟨hlisten, hrun⟩
    refine Or.inl ⟨_, ⟨d, (i, event), event.sent, ((l₁ ++ l₂ : List Datagram) : Multiset Datagram),
      hnext, ?_, rfl, rfl⟩, ?_⟩
    · rw [hflight, Carries.coe_middle]
    · rw [Multiset.coe_add]

/-- Where no node can receive anything, every token is stuck. -/
theorem reception_of_stuck (h : (receptions ns3 net s₀).Stuck s) {d : Datagram}
    (hd : d ∈ s.inFlight) : reception ns3 net d = none := by
  by_contra hne
  obtain ⟨⟨x, left⟩, hnext⟩ := Option.ne_none_iff_exists'.mp hne
  obtain ⟨⟨hlisten, hrun⟩, -⟩ := received_of_reception hnext
  obtain ⟨l₁, l₂, hflight⟩ := List.append_of_mem hd
  exact h _ _ ⟨x.1, d, l₁, l₂, [x.2], ⟨hflight, hlisten, hrun⟩, rfl, rfl⟩

/-- States that differ in the order of what is in flight, forwarded and delivered. -/
structure State.SameUpToOrder (s s' : State ι) : Prop where
  inFlight : s.inFlight.Perm s'.inFlight
  forwarded : s.forwarded.Perm s'.forwarded
  delivered : s.delivered.Perm s'.delivered
  observed : s.observed = s'.observed
  sent : s.sent = s'.sent
  injected : s.injected = s'.injected

/-- A state with the histories of `s₀` and what the receptions `es` add to them. -/
structure State.After (s₀ : State ι) (es : List (ι × Event)) (s : State ι) : Prop where
  forwarded : s.forwarded =
    (es.filterMap fun x => x.2.sent.map Datagram.payload).reverse ++ s₀.forwarded
  delivered : s.delivered =
    (es.filterMap fun x => x.2.tapped.map (Prod.mk x.1)).reverse ++ s₀.delivered
  observed : s.observed = s₀.observed
  sent : s.sent = s₀.sent
  injected : s.injected = s₀.injected

/-- A run of receptions adds what it shows. -/
theorem receptions_after (hrun : (receptions ns3 net s₀).Trace es s) : s₀.After es s := by
  refine hrun.inv s₀.After ⟨rfl, rfl, rfl, rfl, rfl⟩ ?_
  intro es s o s' h hstep
  obtain ⟨i, d, l₁, l₂, event, -, -, -, rfl, rfl⟩ := receptions_step hstep
  refine ⟨?_, ?_, h.observed, h.sent, h.injected⟩
  · rw [h.forwarded]
    cases event <;> simp [Event.sent]
  · rw [h.delivered]
    cases event <;> simp [Event.tapped]

theorem filterMap_reverse_append_perm {α : Type} {es₁ es₂ : List (ι × Event)} (h : es₁.Perm es₂)
    (f : ι × Event → Option α) (l : List α) :
    ((es₁.filterMap f).reverse ++ l).Perm ((es₂.filterMap f).reverse ++ l) := by
  have hmap := h.filterMap f
  exact (((List.reverse_perm _).trans hmap).trans (List.reverse_perm _).symm).append_right l

/-- **The order of receptions does not matter.** Where no two nodes listen at one
address and port, all runs of receptions that have settled have received the same
datagrams to the same effect, and end in the same state up to order. -/
theorem settles_alike (hsole : net.Sole) {s₁ s₂ : State ι} {es₁ es₂ : List (ι × Event)}
    (hrun₁ : (receptions ns3 net s₀).Trace es₁ s₁) (hrun₂ : (receptions ns3 net s₀).Trace es₂ s₂)
    (hend₁ : (receptions ns3 net s₀).Stuck s₁) (hend₂ : (receptions ns3 net s₀).Stuck s₂) :
    es₁.Perm es₂ ∧ s₁.SameUpToOrder s₂ := by
  have hsim := receptions_tokens ns3 hsole s₀
  obtain ⟨b₁, hbag₁, rfl⟩ := hsim.trace hrun₁
  obtain ⟨b₂, hbag₂, rfl⟩ := hsim.trace hrun₂
  obtain ⟨hevents, hflight⟩ := Tokens.Trace.settled hbag₁ hbag₂
    (fun d hd => reception_of_stuck hend₁ hd) fun d hd => reception_of_stuck hend₂ hd
  -- the histories of a state are what its run has shown
  have h₁ := receptions_after hrun₁
  have h₂ := receptions_after hrun₂
  refine ⟨hevents, Multiset.coe_eq_coe.mp hflight, ?_, ?_, h₁.observed.trans h₂.observed.symm,
    h₁.sent.trans h₂.sent.symm, h₁.injected.trans h₂.injected.symm⟩
  · rw [h₁.forwarded, h₂.forwarded]
    exact filterMap_reverse_append_perm hevents _ _
  · rw [h₁.delivered, h₂.delivered]
    exact filterMap_reverse_append_perm hevents _ _

theorem stuck_of_nil (h : s.inFlight = []) : (receptions ns3 net s₀).Stuck s := by
  intro o s' hstep
  obtain ⟨i, d, l₁, l₂, event, hflight, -⟩ := receptions_step hstep
  rw [h] at hflight
  exact List.append_ne_nil_of_right_ne_nil l₁ (List.cons_ne_nil d l₂) hflight.symm

theorem sole_twoNodes : twoNodes.Sole := by
  have haddress : ∀ address, address ∈ twoNodes.addresses 0 → address ∉ twoNodes.addresses 1 := by
    intro address h0 h1
    have hsame := (List.mem_singleton.mp h0).symm.trans (List.mem_singleton.mp h1)
    exact absurd hsame (by decide)
  intro i j address port hi hj
  fin_cases i <;> fin_cases j
  · rfl
  · exact absurd hj.1 (haddress address hi.1)
  · exact absurd hi.1 (haddress address hj.1)
  · rfl

section crossing

variable {s₀ s : State (Fin 2)} {es : List (Fin 2 × Event)}

/-- Node 1 delivers a packet. -/
theorem receptions_plain (hrun : (receptions wire twoNodes s₀).Trace es s) (payload : Bytes)
    (l₁ : List Datagram) {l₂ : List Datagram}
    (hflight : s.inFlight = l₁ ++ toNode1 (plainPacket payload) :: l₂) :
    ∃ es', (receptions wire twoNodes s₀).Trace es' { s with
      inFlight := l₁ ++ l₂
      delivered := (1, plainPacket payload) :: s.delivered } :=
  ⟨_, hrun.tail
    ⟨1, _, l₁, l₂, _, ⟨hflight, listens_twoNodes, receive_plainPacket payload⟩, rfl, rfl⟩⟩

/-- Node 1 sends on what a packet holds, to itself. -/
theorem receptions_nested (hrun : (receptions wire twoNodes s₀).Trace es s) (packet : Bytes)
    (l₁ : List Datagram) {l₂ : List Datagram}
    (hflight : s.inFlight = l₁ ++ toNode1 (nestedPacket (toNode1 packet).payload) :: l₂) :
    ∃ es', (receptions wire twoNodes s₀).Trace es' { s with
      inFlight := toNode1 packet :: (l₁ ++ l₂)
      forwarded := (toNode1 packet).payload :: s.forwarded } :=
  ⟨_, hrun.tail
    ⟨1, _, l₁, l₂, _, ⟨hflight, listens_twoNodes, receive_nestedPacket _⟩, rfl, rfl⟩⟩

end crossing

/-- One datagram after the other, and the second in between. -/
theorem settles_alike_crossing : ∃ es₁ s₁ es₂ s₂,
    (receptions wire twoNodes crossing).Trace es₁ s₁ ∧
    (receptions wire twoNodes crossing).Trace es₂ s₂ ∧
    s₁.delivered = [(1, plainPacket [0x62]), (1, plainPacket [0x61])] ∧
    s₂.delivered = [(1, plainPacket [0x61]), (1, plainPacket [0x62])] ∧
    es₁.Perm es₂ ∧ s₁.SameUpToOrder s₂ := by
  have start : (receptions wire twoNodes crossing).Trace [] crossing := .nil
  obtain ⟨_, hopened⟩ := receptions_nested start _ [] rfl
  obtain ⟨_, hinner⟩ := receptions_plain hopened [0x61] [] rfl
  obtain ⟨es₁, hrun₁⟩ := receptions_plain hinner [0x62] [] rfl
  obtain ⟨_, hother⟩ := receptions_plain hopened [0x62] [_] rfl
  obtain ⟨es₂, hrun₂⟩ := receptions_plain hother [0x61] [] rfl
  exact ⟨es₁, _, es₂, _, hrun₁, hrun₂, rfl, rfl,
    settles_alike sole_twoNodes hrun₁ hrun₂ (stuck_of_nil rfl) (stuck_of_nil rfl)⟩

/-! ## Nested packets arrive -/

/-- A node that is not the destination of a packet sends it on: from the datagram
that holds the packet to the one that the packet holds. The node does not look at
the 64 bytes in front. -/
def Network.Hop (net : Network ι) (d d' : Datagram) : Prop :=
  ∃ (i : ι) (header : Bytes) (p : Packet), net.Listens i d.address d.port ∧
    d.payload = header ++ p.bytes ∧ header.length = 64 ∧
    (net.app i).clientVPNAddress ≠ p.destination ∧ d' = p.forward

theorem reception_of_hop (hns : ns3.Documented) (hsole : net.Sole) {d d' : Datagram}
    (h : net.Hop d d') : ∃ x, reception ns3 net d = some (x, some d') := by
  obtain ⟨i, header, p, hlisten, hpayload, hlen, hother, rfl⟩ := h
  have hrun := receivePacket_forward hns hlen hother
  rw [← hpayload] at hrun
  exact ⟨_, reception_eq hsole (x := (i, _)) ⟨hlisten, hrun⟩⟩

/-- **Nested packets arrive.** A sealed packet that is nested in a datagram in
flight, at any depth, is delivered to its destination in every run of receptions
that has settled, whatever else is in flight and in whatever order it is received. -/
theorem nested_arrives (hns : ns3.Documented) (hsole : net.Sole) {d : Datagram}
    (hd : d ∈ s₀.inFlight) {x : Parcel}
    (hroute : Relation.ReflTransGen net.Hop d (x.datagram net.cipherKey)) {i : ι}
    (hlisten : net.Listens i x.address x.port)
    (hmine : (net.app i).clientVPNAddress = x.packet.destination)
    (hrun : (receptions ns3 net s₀).Trace es s) (hend : (receptions ns3 net s₀).Stuck s) :
    (i, x.packet.bytes) ∈ s.delivered := by
  obtain ⟨b, hbag, rfl⟩ := (receptions_tokens ns3 hsole s₀).trace hrun
  have hopen := receivePacket_parcel hns net i x.packet
  rw [if_pos hmine] at hopen
  -- hops are moves of the token, and the token they leave shows the delivery
  have hmoves := Relation.ReflTransGen.mono (fun _ _ h => reception_of_hop hns hsole h) _ _ hroute
  have hlast := reception_eq hsole (d := x.datagram net.cipherKey)
    (x := (i, .tapReceive x.packet.bytes 0x0800)) ⟨hlisten, hopen⟩
  have hshown := Tokens.Trace.mem_of_outcome hbag (fun d hd => reception_of_stuck hend hd)
    (Multiset.mem_coe.mpr hd) (Tokens.mem_outcome hmoves hlast)
  rw [(receptions_after hrun).delivered]
  refine List.mem_append_left _ (List.mem_reverse.mpr ?_)
  exact List.mem_filterMap.mpr ⟨_, hshown, rfl⟩

/-- The nested packet of the crossing datagrams. -/
theorem nested_arrives_crossing : ∃ es s, (receptions wire twoNodes crossing).Trace es s ∧
    (receptions wire twoNodes crossing).Stuck s ∧ (1, plainPacket [0x61]) ∈ s.delivered := by
  let outer : Packet :=
    { ip := [0x45, 0, 0, 28, 0, 0, 0, 0, 64, 17, 0, 0, 10, 1, 1, 2, 192, 168, 0, 1]
      protocol := 17
      destination := 0xc0a80001
      head := [0xc3, 0x50, 0xc3, 0x50, 0, 8, 0, 0]
      body := (toNode1 (plainPacket [0x61])).payload
      isIpv4 := ⟨⟨5, by decide, by decide, rfl, rfl⟩, rfl, rfl⟩
      length_head := rfl }
  let inner : Parcel := ⟨plainUdp [0x61], 0xc0a80001, 50000⟩
  have hhop : twoNodes.Hop (toNode1 outer.bytes) (inner.datagram zeroKey) :=
    ⟨1, sealBytes zeroKey, outer, listens_twoNodes, rfl, length_sealBytes _, by decide, rfl⟩
  obtain ⟨es, s, hrun, hend⟩ :=
    exists_stuck (.nil : (receptions wire twoNodes crossing).Trace [] crossing)
  have hd : toNode1 outer.bytes ∈ crossing.inFlight := List.mem_cons_self
  exact ⟨es, s, hrun, hend, nested_arrives wire_documented sole_twoNodes hd (.single hhop)
    listens_twoNodes rfl hrun hend⟩

end SimpleVpn
