import Peerster.Gossip.Nesting
import Peerster.Gossip.Routes
import Mathlib.Data.Prod.Lex

/-!
# Unicast

A packet for another node goes to the next hop of the routing table, and every node it comes to
sends it on in the same way (`Unicast`, `handleIncomingPacket`, `relayPacket`).  When routes are
only learned, a node has a route to exactly its direct peers and the nodes it has seen a rumor of;
the next hop has seen as much or more of the destination, so no packet gets stuck on its way, and
following next hops comes to the destination (`Network.reachable_routed`).  A packet that is sent
along such a route arrives with the sender, the destination and the message it was sent with
(`Network.unicast_arrives`).
-/

namespace Peerster.Gossip

namespace Node

/-- `Unicast`. -/
def unicast (n : Node) (c : SendChoice) (dest : GoString) (msg : Payload) :
    Except GoString Sent :=
  match n.routingTable.get dest with
  | none => .error (str "No route to destination " ++ dest)
  | some nextHop =>
      match c.sendError with
      | some err => .error err
      | none => .ok (nextHop, n.packet c dest (.payload msg))

theorem unicast_ok {n : Node} {c : SendChoice} {dest nextHop : GoString} {msg : Payload}
    {pkt : Packet} (sends : n.unicast c dest msg = .ok (nextHop, pkt)) :
    n.routingTable.get dest = some nextHop ∧ pkt = n.packet c dest (.payload msg) := by
  unfold unicast at sends
  split at sends
  · cases sends
  · next hop route =>
    split at sends
    · cases sends
    · cases sends
      exact ⟨route, rfl⟩

/-! ## Which routes a node has -/

/-- The node has its own entry, and an entry for a node that is no direct peer exactly when it has
seen a rumor of it. -/
structure RoutesSeen (n : Node) : Prop where
  self : n.routingTable.get n.address = some n.address
  seen : ∀ d, d ≠ n.address → n.directPeers.get d = none →
    ((n.routingTable.get d).isSome ↔ 0 < n.lastSeq d)

section RoutesSeen

variable {n n' : Node}

theorem newPeer_routesSeen (address : GoString) (ackTimeout : Nat) :
    (newPeer address ackTimeout).RoutesSeen where
  self := FinMap.get_add_self _ _ _
  seen d foreign _ := by
    have route : (newPeer address ackTimeout).routingTable.get d = none :=
      FinMap.get_add_of_ne _ _ foreign
    rw [route]
    exact ⟨fun has => absurd has Bool.false_ne_true, fun positive => absurd positive (lt_irrefl 0)⟩

/-- Fields other than routes, peers and the view may change freely. -/
theorem RoutesSeen.of_same (routes : n.RoutesSeen) (address : n'.address = n.address)
    (receivedSeq : n'.receivedSeq = n.receivedSeq) (directPeers : n'.directPeers = n.directPeers)
    (routingTable : n'.routingTable = n.routingTable) : n'.RoutesSeen := by
  have seq : n'.lastSeq = n.lastSeq := by
    unfold lastSeq
    rw [receivedSeq]
  refine ⟨?_, ?_⟩
  · rw [routingTable, address]
    exact routes.self
  · rw [address, directPeers, routingTable, seq]
    exact routes.seen

theorem RoutesSeen.acceptRumor (routes : n.RoutesSeen) {header : Header} {rumor : Rumor}
    (named : header.relayedBy ≠ []) (next : rumor.sequence = n.lastSeq rumor.origin + 1) :
    (n.acceptRumor header rumor).RoutesSeen := by
  obtain ⟨address, -⟩ := acceptRumor_frame n header rumor
  obtain ⟨directPeers, -⟩ := acceptRumor_directPeers n header rumor
  refine ⟨?_, fun d foreign indirect => ?_⟩
  · rw [address, acceptRumor_routingTable, if_neg fun learns => learns.2.2 rfl]
    exact routes.self
  · rw [address] at foreign
    rw [directPeers] at indirect
    rw [acceptRumor_routingTable, lastSeq_acceptRumor]
    by_cases same : d = rumor.origin
    · rw [if_pos ⟨same, indirect, foreign⟩, if_neg named, if_pos same, next]
      exact ⟨fun _ => Nat.succ_pos _, fun _ => rfl⟩
    · rw [if_neg fun learns => same learns.1, if_neg same]
      exact routes.seen d foreign indirect

theorem processPayload_routes (n : Node) (c : Nat → LayerChoice) (header : Header) (depth : Nat)
    (msg : Payload) :
    (n.processPayload c header depth msg).node.directPeers = n.directPeers ∧
      (n.processPayload c header depth msg).node.routingTable = n.routingTable := by
  induction msg generalizing depth with
  | status view =>
      rw [processPayload, notified_node]
      exact ⟨rfl, rfl⟩
  | ack ackedPacketID view =>
      have frame : (n.deliverAck ackedPacketID).directPeers = n.directPeers ∧
          (n.deliverAck ackedPacketID).routingTable = n.routingTable := by
        unfold deliverAck
        split <;> exact ⟨rfl, rfl⟩
      simp only [processPayload, notified_node, handleAckMessage]
      split
      · exact frame
      · rw [notified_node]
        exact frame
  | privateMessage recipients msg ih =>
      simp only [processPayload]
      split
      · rw [notified_node]
        exact ih (depth + 1)
      · rw [notified_node]
        exact ⟨rfl, rfl⟩
  | other type content =>
      rw [processPayload, notified_node]
      exact ⟨rfl, rfl⟩

theorem RoutesSeen.processPayload (routes : n.RoutesSeen) (c : Nat → LayerChoice) (header : Header)
    (depth : Nat) (msg : Payload) : (n.processPayload c header depth msg).node.RoutesSeen := by
  obtain ⟨address, receivedSeq, -⟩ := processPayload_frame n c header depth msg
  obtain ⟨directPeers, routingTable⟩ := n.processPayload_routes c header depth msg
  exact routes.of_same address receivedSeq directPeers routingTable

/-- The loop, wherever it returns. -/
theorem RoutesSeen.rumorLoop (routes : n.RoutesSeen) (c : RumorChoice) {header : Header}
    {rumors : List Rumor} (named : ∀ r ∈ rumors, header.relayedBy ≠ []) (i : Nat) :
    (Node.rumorLoop c header i n rumors).1.node.RoutesSeen := by
  induction rumors generalizing i n with
  | nil => exact routes
  | cons rumor rumors ih =>
      have here : header.relayedBy ≠ [] := named rumor List.mem_cons_self
      have later : ∀ r ∈ rumors, header.relayedBy ≠ [] := fun _ _ => here
      unfold Node.rumorLoop
      split
      · next expected =>
        have stored : RoutesSeen { n with rumorDB := storeRumor n.rumorDB rumor } :=
          routes.of_same rfl rfl rfl rfl
        have processed : (n.processRumorMessage (c.embedded i) header rumor).node.RoutesSeen :=
          stored.processPayload (c.embedded i) header 0 rumor.msg
        have next : rumor.sequence =
            (n.processRumorMessage (c.embedded i) header rumor).node.lastSeq rumor.origin + 1 := by
          unfold lastSeq processRumorMessage
          dsimp only
          rw [(processPayload_frame _ _ _ _ _).2.1]
          exact expected
        dsimp only
        split
        · exact processed
        · split
          · exact processed.acceptRumor here next
          · exact ih (processed.acceptRumor here next) later (i + 1)
      · exact ih routes later (i + 1)

theorem RoutesSeen.handleRumor (routes : n.RoutesSeen) (c : RumorChoice) {header : Header}
    {rumors : List Rumor} (named : ∀ r ∈ rumors, header.relayedBy ≠ []) :
    (n.handleRumor c header rumors).node.RoutesSeen := by
  have looped := routes.rumorLoop c named 0
  unfold Node.handleRumor
  dsimp only
  split
  · unfold forwardRumorsMessage
    dsimp only
    split
    · exact looped
    · split <;> exact looped.of_same rfl rfl rfl rfl
  · exact looped

theorem RoutesSeen.handleIncomingPacket (routes : n.RoutesSeen) (c : PacketChoice) {pkt : Packet}
    (named : ∀ r ∈ pkt.msg.carried, pkt.header.relayedBy ≠ []) :
    (n.handleIncomingPacket c pkt).node.RoutesSeen := by
  unfold Node.handleIncomingPacket
  split
  · split
    · next rumors decoded =>
      rw [decoded] at named
      exact routes.handleRumor c.rumor named
    · exact routes.processPayload c.payload pkt.header 0 _
  · exact routes

theorem RoutesSeen.addPeer (routes : n.RoutesSeen) (addrs : List GoString) :
    (n.addPeer addrs).RoutesSeen := by
  induction addrs generalizing n with
  | nil => exact routes
  | cons a addrs ih =>
      unfold Node.addPeer
      split
      · next foreign =>
        refine ih ⟨?_, fun d other indirect => ?_⟩
        · dsimp only
          rw [FinMap.get_add_of_ne _ _ (Ne.symm foreign)]
          exact routes.self
        · dsimp only at other indirect ⊢
          have apart : d ≠ a := by
            rintro rfl
            rw [FinMap.get_add_self] at indirect
            cases indirect
          rw [FinMap.get_add_of_ne _ _ apart] at indirect ⊢
          exact routes.seen d other indirect
      · exact ih routes

theorem RoutesSeen.broadcast (routes : n.RoutesSeen) (msg : Payload) :
    (n.broadcast msg).RoutesSeen := by
  refine ⟨routes.self, fun d foreign indirect => ?_⟩
  rw [lastSeq_broadcast, if_neg (show d ≠ n.address from foreign)]
  exact routes.seen d foreign indirect

theorem RoutesSeen.runTask (routes : n.RoutesSeen) (i : Nat) (neighbor : NeighborChoice)
    (c : SendChoice) (wakeup : Wakeup) : (n.runTask i neighbor c wakeup).1.RoutesSeen := by
  unfold Node.runTask
  dsimp only
  split
  · exact routes
  · unfold Node.broadCastRoutine
    dsimp only
    split
    · exact routes.of_same rfl rfl rfl rfl
    · split <;> exact routes.of_same rfl rfl rfl rfl
  · unfold Node.waitForAck
    dsimp only
    split
    · split <;> exact routes.of_same rfl rfl rfl rfl
    · split
      · split <;> exact routes.of_same rfl rfl rfl rfl
      · exact routes.of_same rfl rfl rfl rfl
    · split <;> exact routes.of_same rfl rfl rfl rfl
    · exact routes.of_same rfl rfl rfl rfl

/-- Everything a node does of its own but `SetRoutingEntry`. -/
theorem RoutesSeen.step (routes : n.RoutesSeen) {e : Event}
    (learned : ∀ origin relayAddr, e ≠ .setRoutingEntry origin relayAddr) :
    (n.step e).1.RoutesSeen := by
  cases e with
  | addPeer addrs => exact routes.addPeer addrs
  | setRoutingEntry origin relayAddr => exact (learned origin relayAddr rfl).elim
  | broadcast msg => exact routes.broadcast msg
  | runTask i neighbor c wakeup => exact routes.runTask i neighbor c wakeup
  | antiEntropy c => exact routes
  | sendPayload dest header msg => exact routes

end RoutesSeen

end Node

namespace Network

/-! ## Routes lead to their destination -/

/-- The node that does something has an address. -/
def Named (net : Network) (a : Action) : Prop := ∀ address ∈ net.actor a, address ≠ []

instance (net : Network) (a : Action) : Decidable (net.Named a) :=
  inferInstanceAs (Decidable (∀ address ∈ net.actor a, address ≠ []))

/-- Routes are learned, from nodes with an address. -/
def Learned (net : Network) (a : Action) : Prop := net.PassesSeen a ∧ net.Named a

instance (net : Network) (a : Action) : Decidable (net.Learned a) :=
  inferInstanceAs (Decidable (net.PassesSeen a ∧ net.Named a))

/-- The node knows where to send packets for `d`: it is `d`, or `d` is a direct peer, or it has seen
a rumor of `d`. -/
def Knows (net : Network) (a d : GoString) : Prop :=
  a = d ∨ (net.nodes a).directPeers.get d ≠ none ∨ 0 < (net.nodes a).lastSeq d

/-- Routes are ranked, every node has the routes it should have, and every packet with rumors was
relayed by a node with an address. -/
structure Mapped (net : Network) (stamp : GoString → GoString → Nat) (clock : Nat) : Prop where
  ranked : Ranked net stamp clock
  routes : ∀ a, (net.nodes a).RoutesSeen
  named : ∀ p ∈ net.sent, ∀ r ∈ p.2.msg.carried, p.2.header.relayedBy ≠ []

/-- Every node has seen more of the rumors of each other one than before, or as many since the same
time. -/
def Nears (net : Network) (stamp : GoString → GoString → Nat) (net' : Network)
    (stamp' : GoString → GoString → Nat) : Prop :=
  ∀ b d, b ≠ d → (net.nodes b).lastSeq d < (net'.nodes b).lastSeq d ∨
    (net'.nodes b).lastSeq d = (net.nodes b).lastSeq d ∧ stamp' b d = stamp b d

section Mapped

variable {net : Network} {stamp : GoString → GoString → Nat} {clock : Nat} {a b d : GoString}

theorem initial_mapped (ackTimeout : GoString → Nat) :
    Mapped (initial ackTimeout) (fun _ _ => 0) 1 where
  ranked := initial_ranked ackTimeout
  routes a := Node.newPeer_routesSeen a (ackTimeout a)
  named := by
    intro p mem
    cases mem

theorem Mapped.routes_step (mapped : Mapped net stamp clock) {action : Action}
    (passes : net.PassesSeen action) : ∀ b, ((net.step action).nodes b).RoutesSeen := by
  cases action with
  | act actor e =>
      have learned : ∀ origin relayAddr, e ≠ .setRoutingEntry origin relayAddr := by
        rintro origin relayAddr rfl
        cases passes
      apply (Function.forall_update_iff net.nodes fun _ n => n.RoutesSeen).mpr
      exact ⟨(mapped.routes actor).step learned, fun b _ => mapped.routes b⟩
  | deliver i c =>
      cases found : net.sent[i]? with
      | none =>
          simp only [Network.step, found]
          exact mapped.routes
      | some arriving =>
          have named := mapped.named arriving (List.mem_of_getElem? found)
          simp only [Network.step, found]
          apply (Function.forall_update_iff net.nodes fun _ n => n.RoutesSeen).mpr
          exact ⟨(mapped.routes arriving.1).handleIncomingPacket c named,
            fun b _ => mapped.routes b⟩

/-- One step keeps the invariant, and nobody gets further away from a destination. -/
theorem Mapped.step (mapped : Mapped net stamp clock) {action : Action}
    (learned : net.Learned action) :
    ∃ stamp' clock', Mapped (net.step action) stamp' clock' ∧
      Nears net stamp (net.step action) stamp' := by
  have routes := mapped.routes_step learned.1
  rcases mapped.ranked.step_learns learned.1 with
    same | ⟨actor, via, rumors, n', sent, broadcasts, acts, learns, covered, same⟩
  · rw [same]
    exact ⟨stamp, clock, mapped, fun b d _ => .inr ⟨rfl, rfl⟩⟩
  · rw [same] at routes ⊢
    refine ⟨net.restamp stamp clock actor n', clock + 1,
      ⟨mapped.ranked.learns learns covered, routes, fun p mem r carried => ?_⟩,
      fun b d start => ?_⟩
    · rcases List.mem_append.mp mem with before | now
      · exact mapped.named p before r carried
      · rw [(learns.passes p now r carried).2.1, learns.address, mapped.ranked.address]
        exact learned.2 actor acts
    · dsimp only [restamp]
      by_cases here : b = actor
      · subst here
        have grows := learns.grows d (by rw [mapped.ranked.address]; exact start.symm)
        rw [Function.update_self]
        by_cases more : n'.lastSeq d = (net.nodes b).lastSeq d
        · exact .inr ⟨more, if_neg fun changed => changed.2 more⟩
        · exact .inl (by omega)
      · rw [Function.update_of_ne here]
        exact .inr ⟨rfl, if_neg fun both => here both.1⟩

/-- Knowing a destination lasts. -/
theorem Mapped.knows_step (mapped : Mapped net stamp clock) {action : Action}
    (learned : net.Learned action) (knows : net.Knows a d) : (net.step action).Knows a d := by
  rcases mapped.ranked.step_learns learned.1 with
    same | ⟨actor, via, rumors, n', sent, broadcasts, acts, learns, covered, same⟩
  · rw [same]
    exact knows
  · rw [same]
    unfold Knows at knows ⊢
    dsimp only
    by_cases here : a = actor
    · subst here
      by_cases arrived : a = d
      · exact .inl arrived
      · have foreign : d ≠ (net.nodes a).address := by
          rw [mapped.ranked.address]
          exact Ne.symm arrived
        rw [Function.update_self]
        have grows := learns.grows d foreign
        have peers := learns.learned d foreign
        rcases knows with arrived' | direct | seen
        · exact (arrived arrived').elim
        · exact .inr (.inl fun gone => direct (peers gone).1)
        · exact .inr (.inr (by omega))
    · rw [Function.update_of_ne here]
      exact knows

theorem step_sendPayload (net : Network) (actor dest : GoString) (header : Header) (msg : Payload) :
    net.step (.act actor (.sendPayload dest header msg)) =
      ⟨net.nodes, net.sent ++ [(dest, ⟨header, .payload msg⟩)], net.broadcasts⟩ := by
  simp only [Network.step, Node.step, Function.update_eq_self, logged]

theorem Mapped.sendPayload (mapped : Mapped net stamp clock) (actor dest : GoString)
    (header : Header) (msg : Payload) :
    Mapped (net.step (.act actor (.sendPayload dest header msg))) stamp clock := by
  obtain ⟨⟨address, routed, stamps, sent, hops⟩, routes, named⟩ := mapped
  rw [step_sendPayload]
  refine ⟨⟨address, routed, stamps, fun p mem r carried => ?_, hops⟩, routes,
    fun p mem r carried => ?_⟩
  · rcases List.mem_append.mp mem with before | now
    · exact sent p before r carried
    · rw [List.mem_singleton.mp now] at carried
      cases carried
  · rcases List.mem_append.mp mem with before | now
    · exact named p before r carried
    · rw [List.mem_singleton.mp now] at carried
      cases carried

/-- A node has a route to a destination exactly when it knows it. -/
theorem Mapped.route_isSome_iff (mapped : Mapped net stamp clock) :
    ((net.nodes a).routingTable.get d).isSome ↔ net.Knows a d := by
  have self := mapped.ranked.address a
  by_cases arrived : d = a
  · subst arrived
    have own := (mapped.routes d).self
    rw [self] at own
    rw [own]
    exact ⟨fun _ => .inl rfl, fun _ => rfl⟩
  · have foreign : d ≠ (net.nodes a).address := by
      rw [self]
      exact arrived
    unfold Knows
    by_cases indirect : (net.nodes a).directPeers.get d = none
    · rw [(mapped.routes a).seen d foreign indirect]
      simp only [Ne.symm arrived, indirect, ne_eq, not_true, false_or]
    · rw [(mapped.ranked.routed a).direct d foreign indirect]
      exact ⟨fun _ => .inr (.inl indirect), fun _ => rfl⟩

/-- A node that knows a destination has a next hop for it. -/
theorem Mapped.exists_nextHop (mapped : Mapped net stamp clock) (knows : net.Knows a d)
    (foreign : a ≠ d) : ∃ b, (net.nodes a).routingTable.get d = some b ∧
      net.nextHop d a = some b := by
  obtain ⟨b, route⟩ := Option.isSome_iff_exists.mp (mapped.route_isSome_iff.mpr knows)
  refine ⟨b, route, ?_⟩
  unfold nextHop
  rw [mapped.ranked.address, if_neg (Ne.symm foreign), route]

/-- Every next hop knows the destination. -/
theorem Mapped.knows_nextHop (mapped : Mapped net stamp clock) (hop : net.nextHop d a = some b) :
    net.Knows b d := by
  obtain ⟨foreign, arrived | more | since⟩ := mapped.ranked.closer hop
  · exact .inl arrived
  · exact .inr (.inr (by omega))
  · have apart : d ≠ (net.nodes a).address := by
      rw [mapped.ranked.address]
      exact Ne.symm foreign
    unfold nextHop at hop
    rw [if_neg apart] at hop
    by_cases indirect : (net.nodes a).directPeers.get d = none
    · have seen := ((mapped.routes a).seen d apart indirect).mp (hop ▸ rfl)
      exact .inr (.inr (by omega))
    · have direct := (mapped.ranked.routed a).direct d apart indirect
      exact .inl (Option.some.inj (hop.symm.trans direct))

/-- How far a node is from a destination: how many rumors of it, out of `reached`, the node has not
seen, and since when. -/
def distance (net : Network) (stamp : GoString → GoString → Nat) (reached : Nat)
    (d b : GoString) : Nat × Nat :=
  (reached - (net.nodes b).lastSeq d, stamp b d)

/-- Less far. -/
abbrev Less : Nat × Nat → Nat × Nat → Prop := Prod.Lex (· < ·) (· < ·)

theorem less_wellFounded : WellFounded Less :=
  WellFounded.prod_lex Nat.lt_wfRel.wf Nat.lt_wfRel.wf

/-- The next hop is less far, when the node has not seen more than is reached. -/
theorem Closer.less {reached : Nat} (closer : net.Closer stamp d b a) (foreign : b ≠ d)
    (seen : (net.nodes b).lastSeq d ≤ reached) :
    Less (net.distance stamp reached d b) (net.distance stamp reached d a) := by
  rcases closer.2 with arrived | more | ⟨same, since⟩
  · exact (foreign arrived).elim
  · exact .left _ _ (by omega)
  · unfold distance
    rw [same]
    exact .right _ since

end Mapped

/-! ## Packets on their way -/

/-- The step is no broadcast of `d`. -/
def Silent (d : GoString) : Action → Prop
  | .act address (.broadcast _) => address ≠ d
  | _ => True

instance (d : GoString) : ∀ a, Decidable (Silent d a)
  | .act address (.broadcast _) => inferInstanceAs (Decidable (address ≠ d))
  | .act _ (.addPeer _) | .act _ (.setRoutingEntry _ _) | .act _ (.runTask _ _ _ _)
  | .act _ (.antiEntropy _) | .act _ (.sendPayload _ _ _) | .deliver _ _ => instDecidableTrue

/-- What happens until a packet on its way arrives at the next node, and the choices of that node
when it handles the packet. -/
structure Hop where
  meanwhile : List Action
  handled : PacketChoice

namespace Hop

/-- The network when the packet arrives. -/
def arrival (hop : Hop) (net : Network) : Network := Run.run step net hop.meanwhile

/-- Everything that happens, up to the handling of the packet with index `i`. -/
def actions (hop : Hop) (i : Nat) : List Action := hop.meanwhile ++ [.deliver i hop.handled]

/-- Routes are learned, `d` is silent, and sending the packet on does not fail. -/
def Goes (hop : Hop) (d : GoString) (net : Network) (i : Nat) : Prop :=
  Run.Always step (fun net a => net.Learned a ∧ Silent d a) net (hop.actions i) ∧
    hop.handled.relay.sendError = none

end Hop

/-- The network and the index of the packet, after some hops.  The packet that a node sends on comes
after all that were sent before. -/
def journey : (Nat → Hop) → Nat → Network × Nat → Network × Nat
  | _, 0, s => s
  | hops, k + 1, (net, i) =>
      journey (fun j => hops (j + 1)) k
        (Run.run step net ((hops 0).actions i), ((hops 0).arrival net).sent.length)

/-- The packet is on its way to the node. -/
def Arrives (d : GoString) (s : Network × Nat) : Prop := ∃ pkt, s.1.sent[s.2]? = some (d, pkt)

section Journey

variable {net : Network} {stamp : GoString → GoString → Nat} {clock : Nat} {a b d : GoString}

theorem Nears.trans {net' net'' : Network} {stamp' stamp'' : GoString → GoString → Nat}
    (first : Nears net stamp net' stamp') (second : Nears net' stamp' net'' stamp'') :
    Nears net stamp net'' stamp'' := by
  intro b d start
  have earlier := first b d start
  have later := second b d start
  omega

/-- What a run in which routes are learned keeps. -/
theorem Mapped.run (mapped : Mapped net stamp clock) {actions : List Action}
    (learned : Run.Always Network.step Learned net actions) :
    ∃ stamp' clock', Mapped (Run.run Network.step net actions) stamp' clock' ∧
      Nears net stamp (Run.run Network.step net actions) stamp' ∧
      ∀ a d, net.Knows a d → (Run.run Network.step net actions).Knows a d := by
  induction actions generalizing net stamp clock with
  | nil => exact ⟨stamp, clock, mapped, fun b d _ => .inr ⟨rfl, rfl⟩, fun _ _ knows => knows⟩
  | cons action actions ih =>
      obtain ⟨stamp', clock', next, nears⟩ := mapped.step learned.1
      obtain ⟨stamp'', clock'', last, nears', knows⟩ := ih next learned.2
      exact ⟨stamp'', clock'', last, nears.trans nears',
        fun a d known => knows a d (mapped.knows_step learned.1 known)⟩

theorem broadcasts_of_silent {action : Action} (silent : Silent d action) :
    (net.step action).broadcasts d = net.broadcasts d := by
  cases action with
  | act address e =>
      cases e with
      | broadcast msg => exact Function.update_of_ne (Ne.symm silent) ..
      | _ => rfl
  | deliver i c =>
      cases found : net.sent[i]? with
      | none => simp only [Network.step, found]
      | some arriving => simp only [Network.step, found]

/-- The node a packet has come to sends it on, and stays as it is. -/
theorem Mapped.relays (mapped : Mapped net stamp clock) {i : Nat} {pkt : Packet}
    (found : net.sent[i]? = some (a, pkt)) (knows : net.Knows a pkt.header.destination)
    (foreign : a ≠ pkt.header.destination) {c : PacketChoice} (sends : c.relay.sendError = none) :
    ∃ b, net.nextHop pkt.header.destination a = some b ∧
      net.step (.deliver i c) = ⟨net.nodes, net.sent ++ [(b, ⟨⟨c.relay.packetID, pkt.header.source,
        a, pkt.header.destination⟩, pkt.msg⟩)], net.broadcasts⟩ := by
  obtain ⟨b, route, hop⟩ := mapped.exists_nextHop knows foreign
  have self := mapped.ranked.address a
  refine ⟨b, hop, ?_⟩
  simp only [Network.step, found]
  unfold Node.handleIncomingPacket
  rw [if_neg (by rw [self]; exact Ne.symm foreign)]
  unfold Node.relayPacket
  dsimp only
  rw [route, sends, Function.update_eq_self, self]

/-- A node that others near is at most as far as before. -/
theorem Nears.less {net' : Network} {stamp' : GoString → GoString → Nat}
    (nears : Nears net stamp net' stamp') (foreign : b ≠ d) {reached : Nat}
    (seen : (net'.nodes b).lastSeq d ≤ reached) {far : Nat × Nat}
    (less : Less far (net'.distance stamp' reached d b)) :
    Less far (net.distance stamp reached d b) := by
  rcases nears b d foreign with more | ⟨same, since⟩
  · have nearer : Less (net'.distance stamp' reached d b) (net.distance stamp reached d b) :=
      .left _ _ (by omega)
    exact IsTrans.trans _ _ _ less nearer
  · unfold distance at less ⊢
    rw [same, since] at less
    exact less

theorem Hop.Goes.learned {hop : Hop} {i : Nat} (goes : hop.Goes d net i) :
    Run.Always Network.step Learned net (hop.actions i) :=
  goes.1.imp (I := fun _ => True) trivial (fun _ _ _ _ => trivial) fun _ _ _ both => both.1

theorem Hop.Goes.silent {hop : Hop} {i : Nat} (goes : hop.Goes d net i) :
    Run.Always Network.step (fun _ a => Silent d a) net (hop.actions i) :=
  goes.1.imp (I := fun _ => True) trivial (fun _ _ _ _ => trivial) fun _ _ _ both => both.2

theorem reached_of_silent {actions : List Action}
    (silent : Run.Always Network.step (fun _ a => Silent d a) net actions) :
    reached (Run.run Network.step net actions).broadcasts d = reached net.broadcasts d := by
  unfold reached
  rw [silent.run_invariant (I := fun net' => net'.broadcasts d = net.broadcasts d) rfl
    fun net' action same here => (broadcasts_of_silent here).trans same]

theorem Inv.lastSeq_le (inv : net.Inv) (a d : GoString) :
    (net.nodes a).lastSeq d ≤ reached net.broadcasts d := by
  unfold Node.lastSeq
  cases found : (net.nodes a).receivedSeq.get d with
  | none => exact Nat.zero_le _
  | some s => exact (inv.nodes a).receivedSeq d s found

/-- One hop: the packet comes to a node that knows the destination too, and is less far, unless it
is the destination. -/
theorem Mapped.hop (mapped : Mapped net stamp clock) (inv : net.Inv) {i : Nat} {pkt : Packet}
    (found : net.sent[i]? = some (b, pkt)) (destination : pkt.header.destination = d)
    (knows : net.Knows b d) (foreign : b ≠ d) {hop : Hop} (goes : hop.Goes d net i) :
    ∃ next pkt' stamp' clock', Mapped (Run.run Network.step net (hop.actions i)) stamp' clock' ∧
      (Run.run Network.step net (hop.actions i)).sent[(hop.arrival net).sent.length]? =
        some (next, pkt') ∧
      (pkt'.header.source = pkt.header.source ∧ pkt'.header.destination = d ∧ pkt'.msg = pkt.msg) ∧
      (Run.run Network.step net (hop.actions i)).Knows next d ∧
      (next ≠ d → Less
        ((Run.run Network.step net (hop.actions i)).distance stamp' (reached net.broadcasts d) d
          next)
        (net.distance stamp (reached net.broadcasts d) d b)) := by
  subst destination
  obtain ⟨meanwhile, handled, -⟩ := Run.always_append.mp goes.learned
  have silent := (Run.always_append.mp goes.silent).1
  -- The packet arrives while others may have changed the routes.
  obtain ⟨stamp', clock', mapped', nears, lasts⟩ : ∃ stamp' clock',
      Mapped (hop.arrival net) stamp' clock' ∧ Nears net stamp (hop.arrival net) stamp' ∧
        ∀ a d, net.Knows a d → (hop.arrival net).Knows a d := mapped.run meanwhile
  have found' : (hop.arrival net).sent[i]? = some (b, pkt) := run_sent net hop.meanwhile found
  have inv' : (hop.arrival net).Inv := Run.run_invariant inv (fun _ a inv => inv.step a) _
  obtain ⟨next, hops, stepped⟩ := mapped'.relays found' (lasts b _ knows) foreign goes.2
  obtain ⟨stamp'', clock'', mapped'', nears'⟩ := mapped'.step handled
  have seen : ∀ a, ((hop.arrival net).nodes a).lastSeq pkt.header.destination ≤
      reached net.broadcasts pkt.header.destination := by
    intro a
    rw [← reached_of_silent silent]
    exact inv'.lastSeq_le a _
  have after : Run.run Network.step net (hop.actions i) =
      (hop.arrival net).step (.deliver i hop.handled) := by
    rw [Hop.actions, Run.run_append]
    rfl
  have unchanged : ((hop.arrival net).step (.deliver i hop.handled)).nodes =
      (hop.arrival net).nodes := by
    rw [stepped]
  refine ⟨next,
    ⟨⟨hop.handled.relay.packetID, pkt.header.source, b, pkt.header.destination⟩, pkt.msg⟩,
    stamp'', clock'', after ▸ mapped'', ?_, ⟨rfl, rfl, rfl⟩, ?_, fun other => ?_⟩
  · rw [after, stepped, List.getElem?_concat_length]
  · rw [after, stepped]
    exact mapped'.knows_nextHop hops
  · refine nears.less foreign (seen b) ?_
    have closer := (mapped'.ranked.closer hops).less other (seen next)
    have same : stamp'' next pkt.header.destination = stamp' next pkt.header.destination := by
      have still := nears' next _ other
      rw [unchanged] at still
      omega
    rw [after]
    unfold distance at closer ⊢
    rw [unchanged, same]
    exact closer

/-- A packet whose next node knows the destination arrives there.  The induction is on how far that
node is. -/
theorem Mapped.arrives (mapped : Mapped net stamp clock) (inv : net.Inv) {i : Nat} {pkt : Packet}
    (found : net.sent[i]? = some (b, pkt)) (destination : pkt.header.destination = d)
    (knows : net.Knows b d) (hops : Nat → Hop)
    (goes : ∀ k, (∀ j ≤ k, ¬ Arrives d (journey hops j (net, i))) →
      (hops k).Goes d (journey hops k (net, i)).1 (journey hops k (net, i)).2) :
    ∃ k pkt', (journey hops k (net, i)).1.sent[(journey hops k (net, i)).2]? = some (d, pkt') ∧
      pkt'.header.source = pkt.header.source ∧ pkt'.header.destination = d ∧
      pkt'.msg = pkt.msg := by
  generalize far : net.distance stamp (reached net.broadcasts d) d b = distance
  induction distance using less_wellFounded.induction
    generalizing net stamp clock b i pkt hops with
  | _ distance ih =>
      by_cases here : b = d
      · subst here
        exact ⟨0, pkt, found, rfl, destination, rfl⟩
      have onTheWay : ¬ Arrives d (journey hops 0 (net, i)) := by
        rintro ⟨pkt', there⟩
        exact here (congrArg Prod.fst (Option.some.inj (found.symm.trans there)))
      have going : (hops 0).Goes d net i := by
        refine goes 0 fun j start => ?_
        rw [Nat.le_zero.mp start]
        exact onTheWay
      obtain ⟨next, pkt', stamp', clock', mapped', found', ⟨source, destination', msg⟩, knows',
        nearer⟩ := mapped.hop inv found destination knows here going
      by_cases arrived : next = d
      · subst arrived
        exact ⟨1, pkt', found', source, destination', msg⟩
      have inv' : (Run.run Network.step net ((hops 0).actions i)).Inv :=
        Run.run_invariant inv (fun _ a inv => inv.step a) _
      have less := nearer arrived
      rw [far, ← reached_of_silent going.silent] at less
      obtain ⟨k, pkt'', arrives, source', destination'', msg'⟩ := ih _ less mapped' inv' found'
        destination' knows' (fun j => hops (j + 1)) (by
          refine fun k later => goes (k + 1) fun j le => ?_
          cases j with
          | zero => exact onTheWay
          | succ j => exact later j (Nat.le_of_succ_le_succ le)) rfl
      exact ⟨k + 1, pkt'', arrives, source'.trans source, destination'', msg'.trans msg⟩

end Journey

/-- After a run in which routes are learned. -/
theorem run_mapped (ackTimeout : GoString → Nat) {actions : List Action}
    (learned : Run.Always step Learned (initial ackTimeout) actions) :
    ∃ stamp clock, Mapped (Run.run step (initial ackTimeout) actions) stamp clock := by
  obtain ⟨stamp, clock, mapped, -⟩ := (initial_mapped ackTimeout).run learned
  exact ⟨stamp, clock, mapped⟩

/-- **Routes lead to their destination.**  When routes are only learned, and no node sends on a
rumor that it has not itself accepted, following next hops from a node comes to a destination
exactly when the destination is the node itself, one of its direct peers, or a node of which it has
seen a rumor. -/
theorem reachable_routed (ackTimeout : GoString → Nat) (actions : List Action)
    (learned : Run.Always step Learned (initial ackTimeout) actions) (a d : GoString) :
    let net := Run.run step (initial ackTimeout) actions
    PointerWalk.Reaches (net.nextHop d) a d ↔ net.Knows a d := by
  intro net
  obtain ⟨stamp, clock, mapped⟩ := run_mapped ackTimeout learned
  have inv : net.Inv :=
    Run.run_invariant (initial_inv ackTimeout) (fun _ a inv => inv.step a) actions
  constructor
  · intro reaches
    rcases PointerWalk.reaches_iff.mp reaches with here | ⟨b, hop, -⟩
    · exact .inl here
    · refine mapped.route_isSome_iff.mp ?_
      unfold nextHop at hop
      split at hop
      · cases hop
      · exact Option.isSome_iff_exists.mpr ⟨b, hop⟩
  · intro knows
    have wf : WellFounded (InvImage Less (net.distance stamp (reached net.broadcasts d) d)) :=
      InvImage.wf _ less_wellFounded
    refine PointerWalk.reaches_of_wellFounded wf (P := fun a => net.Knows a d) ?_ knows
    intro a here start
    obtain ⟨b, -, hop⟩ := mapped.exists_nextHop here start
    refine ⟨b, hop, mapped.knows_nextHop hop, fun other => ?_⟩
    exact (mapped.ranked.closer hop).less other (inv.lastSeq_le b d)

/-- **Unicast arrives.**  When routes are only learned, a message that `Unicast` has sent without an
error comes to its destination after finitely many hops, as it was sent and in the name of the
sender: also while nodes go on to gossip and routes change, as long as the destination broadcasts
nothing and no packet is lost. -/
theorem unicast_arrives (ackTimeout : GoString → Nat) (actions : List Action)
    (learned : Run.Always step Learned (initial ackTimeout) actions) {a d next : GoString}
    {c : SendChoice} {msg : Payload} {pkt : Packet} (hops : Nat → Hop) :
    let net := Run.run step (initial ackTimeout) actions
    let sent := (net.step (.act a (.sendPayload next pkt.header msg)), net.sent.length)
    (net.nodes a).unicast c d msg = .ok (next, pkt) →
      (∀ k, (∀ j ≤ k, ¬ Arrives d (journey hops j sent)) →
        (hops k).Goes d (journey hops k sent).1 (journey hops k sent).2) →
      ∃ k pkt', (journey hops k sent).1.sent[(journey hops k sent).2]? = some (d, pkt') ∧
        pkt'.header.source = a ∧ pkt'.header.destination = d ∧ pkt'.msg = .payload msg := by
  intro net sent sends goes
  obtain ⟨stamp, clock, mapped⟩ := run_mapped ackTimeout learned
  have inv : net.Inv :=
    Run.run_invariant (initial_inv ackTimeout) (fun _ a inv => inv.step a) actions
  obtain ⟨route, rfl⟩ := Node.unicast_ok sends
  have knows : net.Knows next d := by
    by_cases here : a = d
    · subst here
      have own := (mapped.routes a).self
      rw [mapped.ranked.address, route] at own
      exact .inl (Option.some.inj own)
    · refine mapped.knows_nextHop (a := a) ?_
      unfold nextHop
      rw [mapped.ranked.address, if_neg (Ne.symm here), route]
  have found : sent.1.sent[net.sent.length]? =
      some (next, (net.nodes a).packet c d (.payload msg)) :=
    List.getElem?_concat_length
  have knows' : sent.1.Knows next d := by
    dsimp only [sent]
    rw [step_sendPayload]
    exact knows
  have inv' : sent.1.Inv := inv.step (.act a (.sendPayload next _ msg))
  obtain ⟨k, pkt', arrives, source, destination, same⟩ :=
    (mapped.sendPayload a next _ msg).arrives inv' found rfl knows' hops goes
  exact ⟨k, pkt', arrives, source.trans (mapped.ranked.address a), destination, same⟩

/-- After its first rumor `d` is reached from `x`. -/
theorem routed_firstRumor :
    PointerWalk.Reaches ((Run.run step (initial fun _ => 0) firstRumor).nextHop (str "d"))
      (str "x") (str "d") :=
  (reachable_routed (fun _ => 0) firstRumor (by decide +kernel) (str "x") (str "d")).mpr
    (.inr (.inr (by decide +kernel)))

/-- Then a private message from `x` to `d` goes through `z`, and arrives. -/
theorem arrives_firstRumor :
    let net := Run.run step (initial fun _ => 0) firstRumor
    let hops : Nat → Hop := fun _ => ⟨[], samplePacket none⟩
    let msg : Payload := .privateMessage [str "d"] (.other (str "chat") [])
    let pkt := (net.nodes (str "x")).packet sampleSend (str "d") (.payload msg)
    let sent := (net.step (.act (str "x") (.sendPayload (str "z") pkt.header msg)), net.sent.length)
    ∃ k pkt', (journey hops k sent).1.sent[(journey hops k sent).2]? = some (str "d", pkt') ∧
      pkt'.header.source = str "x" ∧ pkt'.header.destination = str "d" ∧
      pkt'.msg = .payload msg := by
  intro net hops msg pkt sent
  have route : (net.nodes (str "x")).routingTable.get (str "d") = some (str "z") := by
    decide +kernel
  have sends : (net.nodes (str "x")).unicast sampleSend (str "d") msg = .ok (str "z", pkt) := by
    unfold Node.unicast
    rw [route]
    rfl
  refine unicast_arrives (fun _ => 0) firstRumor (by decide +kernel) hops sends fun k onTheWay => ?_
  cases k with
  | zero => exact ⟨by decide +kernel, rfl⟩
  | succ k =>
      have there : ((journey hops 1 sent).1.sent[(journey hops 1 sent).2]?).map Prod.fst =
          some (str "d") := by decide +kernel
      obtain ⟨⟨_, pkt'⟩, found, rfl⟩ := Option.map_eq_some_iff.mp there
      exact (onTheWay 1 (Nat.succ_le_succ (Nat.zero_le k)) ⟨pkt', found⟩).elim

end Network

end Peerster.Gossip
