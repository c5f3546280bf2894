import Peerster.Gossip.Nesting
import Peerster.Lib.Run

/-!
# Neighbors and routes

`directPeers` lists the neighbors that gossip picks from, and the routing table has the way to every
address.  `AddPeer` writes both, received rumors leave the routes to the node itself and to its
neighbors alone, and `SetRoutingEntry` looks at neither: it can delete or redirect the route to a
neighbor that is picked on.
-/

namespace Peerster.Gossip

/-- A change of the tables: a call of `AddPeer` or `SetRoutingEntry`, or a received message of
rumors. -/
inductive Change : Type
  | addPeer (addrs : List GoString)
  | setRoutingEntry (origin relayAddr : GoString)
  | rumors (c : List Nat → RumorChoice) (header : Header) (message : Nested)

namespace Node

/-- The node after a change. -/
def change (n : Node) : Change → Node
  | .addPeer addrs => n.addPeer addrs
  | .setRoutingEntry origin relayAddr => n.setRoutingEntry origin relayAddr
  | .rumors c header message => (n.handleNested c header message).outcome.node

/-- The route to the node itself is itself, and so is the route to every neighbor. -/
structure Consistent (n : Node) : Prop where
  self : n.routingTable.get n.address = some n.address
  direct : ∀ peer, n.directPeers.get peer ≠ none → n.routingTable.get peer = some peer

/-- A routing entry that is set for the node itself or for a neighbor is the direct one. -/
def SetsDirect (n : Node) : Change → Prop
  | .setRoutingEntry origin relayAddr =>
      origin = n.address ∨ n.directPeers.get origin ≠ none → relayAddr = origin ∧ origin ≠ []
  | .addPeer _ => True
  | .rumors _ _ _ => True

variable {n : Node}

theorem consistent_newPeer (address : GoString) (ackTimeout : Nat) :
    (newPeer address ackTimeout).Consistent where
  self := FinMap.get_add_self _ _ _
  direct _ impossible := (impossible rfl).elim

/-- Adding peers adds their routes. -/
theorem Consistent.addPeer (consistent : n.Consistent) (addrs : List GoString) :
    (n.addPeer addrs).Consistent := by
  induction addrs generalizing n with
  | nil => exact consistent
  | cons a addrs ih =>
      unfold Node.addPeer
      split
      · next other =>
        apply ih
        constructor
        · dsimp only
          rw [FinMap.get_add_of_ne _ _ (Ne.symm other)]
          exact consistent.self
        · intro peer known
          dsimp only at known ⊢
          rw [FinMap.get_add] at known ⊢
          split
          · next same => rw [same]
          · next others =>
            rw [if_neg others] at known
            exact consistent.direct peer known
      · exact ih consistent

theorem setRoutingEntry_get (n : Node) (origin relayAddr d : GoString) :
    (n.setRoutingEntry origin relayAddr).routingTable.get d =
      if d = origin then if relayAddr = [] then none else some relayAddr
      else n.routingTable.get d := by
  unfold setRoutingEntry
  split
  · rfl
  · rfl

theorem setRoutingEntry_frame (n : Node) (origin relayAddr : GoString) :
    (n.setRoutingEntry origin relayAddr).address = n.address ∧
      (n.setRoutingEntry origin relayAddr).directPeers = n.directPeers := by
  unfold setRoutingEntry
  split <;> exact ⟨rfl, rfl⟩

/-- A routing entry is set consistently exactly when it is the direct one, if it is for the node
itself or a neighbor. -/
theorem Consistent.setRoutingEntry_iff (consistent : n.Consistent) (origin relayAddr : GoString) :
    (n.setRoutingEntry origin relayAddr).Consistent ↔
      n.SetsDirect (.setRoutingEntry origin relayAddr) := by
  obtain ⟨address, peers⟩ := n.setRoutingEntry_frame origin relayAddr
  have entry := n.setRoutingEntry_get origin relayAddr
  have direct : ∀ d, d = origin → (n.setRoutingEntry origin relayAddr).routingTable.get d = some d →
      relayAddr = origin ∧ origin ≠ [] := by
    intro d same route
    subst same
    rw [entry, if_pos rfl] at route
    split at route
    · cases route
    · next filled =>
      have relay := Option.some.inj route
      exact ⟨relay, relay ▸ filled⟩
  constructor
  · rintro ⟨self, neighbor⟩ (here | known)
    · rw [address] at self
      exact direct n.address here.symm self
    · rw [← peers] at known
      exact direct origin rfl (neighbor origin known)
  · intro sets
    have kept : ∀ d, (d = n.address ∨ n.directPeers.get d ≠ none) →
        n.routingTable.get d = some d →
        (n.setRoutingEntry origin relayAddr).routingTable.get d = some d := by
      intro d which route
      rw [entry]
      split
      · next same =>
        subst same
        obtain ⟨relay, filled⟩ := sets which
        rw [relay, if_neg filled]
      · exact route
    constructor
    · rw [address]
      exact kept n.address (.inl rfl) consistent.self
    · intro peer known
      rw [peers] at known
      exact kept peer (.inr known) (consistent.direct peer known)

/-! ## Received rumors -/

/-- Handling leaves the node and its neighbors alone, and a consistent node consistent. -/
structure Respects (n n' : Node) : Prop where
  address : n'.address = n.address
  directPeers : n'.directPeers = n.directPeers
  consistent : n.Consistent → n'.Consistent

theorem Respects.trans {n' n'' : Node} (first : Respects n n') (second : Respects n' n'') :
    Respects n n'' :=
  ⟨second.address.trans first.address, second.directPeers.trans first.directPeers,
    fun consistent => second.consistent (first.consistent consistent)⟩

/-- What leaves the two tables alone. -/
theorem respects_of_same {n' : Node} (address : n'.address = n.address)
    (directPeers : n'.directPeers = n.directPeers)
    (routingTable : n'.routingTable = n.routingTable) : Respects n n' := by
  refine ⟨address, directPeers, fun consistent => ⟨?_, fun peer known => ?_⟩⟩
  · rw [routingTable, address]
    exact consistent.self
  · rw [directPeers] at known
    rw [routingTable]
    exact consistent.direct peer known

theorem respects_deliverAck (n : Node) (ackedPacketID : GoString) :
    Respects n (n.deliverAck ackedPacketID) := by
  unfold deliverAck
  split <;> exact respects_of_same rfl rfl rfl

theorem respects_processPayload (n : Node) (c : Nat → LayerChoice) (header : Header) (depth : Nat)
    (msg : Payload) : Respects n (n.processPayload c header depth msg).node := by
  induction msg generalizing depth with
  | status view =>
      rw [processPayload, notified_node]
      exact respects_of_same rfl rfl rfl
  | ack ackedPacketID view =>
      simp only [processPayload, notified_node, handleAckMessage]
      split
      · exact n.respects_deliverAck ackedPacketID
      · rw [notified_node]
        exact n.respects_deliverAck ackedPacketID
  | privateMessage recipients msg ih =>
      simp only [processPayload]
      split
      · rw [notified_node]
        exact ih (depth + 1)
      · rw [notified_node]
        exact respects_of_same rfl rfl rfl
  | other type content =>
      rw [processPayload, notified_node]
      exact respects_of_same rfl rfl rfl

theorem respects_processEmbedded (inner : Handling) (within : Respects n inner.outcome.node)
    (c : Nat → LayerChoice) (header : Header) (depth : Nat) (msg : Payload) :
    Respects n (n.processEmbedded c header inner depth msg).outcome.node := by
  induction msg generalizing depth with
  | status view => exact n.respects_processPayload c header depth _
  | ack ackedPacketID view => exact n.respects_processPayload c header depth _
  | privateMessage recipients msg ih =>
      rw [processEmbedded_private]
      split
      · rw [notified_node]
        exact ih (depth + 1)
      · rw [notified_node]
        exact respects_of_same rfl rfl rfl
  | other type content =>
      rw [processEmbedded_other]
      split
      · rw [notified_node]
        exact within
      · exact n.respects_processPayload c header depth _

/-- An accepted rumor sets no route to the node itself or to a neighbor. -/
theorem respects_acceptRumor (n : Node) (header : Header) (rumor : Rumor) :
    Respects n (n.acceptRumor header rumor) := by
  have seen : Respects n
      { n with receivedSeq := n.receivedSeq.add rumor.origin rumor.sequence } :=
    respects_of_same rfl rfl rfl
  unfold acceptRumor
  dsimp only
  split
  · next stranger =>
    refine seen.trans ⟨?_, ?_, fun consistent => ?_⟩
    · exact (setRoutingEntry_frame _ _ _).1
    · exact (setRoutingEntry_frame _ _ _).2
    · refine (consistent.setRoutingEntry_iff _ _).mpr fun which => ?_
      rcases which with self | known
      · exact (stranger.2 self).elim
      · exact (known stranger.1).elim
  · exact seen

theorem respects_finishRumors (c : RumorChoice) (header : Header) (rumors : List Rumor)
    (o : Outcome) (processedRumor : Bool) :
    Respects o.node (finishRumors c header rumors o processedRumor).node := by
  unfold finishRumors
  split
  · unfold forwardRumorsMessage
    dsimp only
    split
    · exact respects_of_same rfl rfl rfl
    · split <;> exact respects_of_same rfl rfl rfl
  · exact respects_of_same rfl rfl rfl

/-- The loop, at every depth. -/
theorem respects_nestedLoop (c : List Nat → RumorChoice) (header : Header) (message : Nested)
    (path : List Nat) (i : Nat) (n : Node) :
    Respects n (nestedLoop c header path i n message).1.outcome.node := by
  induction message generalizing path i n with
  | nil => exact respects_of_same rfl rfl rfl
  | cons rumor embedded rest inside later =>
      unfold nestedLoop
      split
      · dsimp only
        have stored : Respects n { n with rumorDB := storeRumor n.rumorDB rumor } :=
          respects_of_same rfl rfl rfl
        have within := (inside (i :: path) 0 { n with rumorDB := storeRumor n.rumorDB rumor }).trans
          (respects_finishRumors (c (i :: path)) header embedded.rumors _ (nestedLoop c header
            (i :: path) 0 { n with rumorDB := storeRumor n.rumorDB rumor } embedded).2)
        have handled := stored.trans (respects_processEmbedded
          ⟨_, (nestedLoop c header (i :: path) 0
            { n with rumorDB := storeRumor n.rumorDB rumor } embedded).1.writes⟩ within
          ((c path).embedded i) header 0 rumor.msg)
        split
        · exact handled
        · have accepted := handled.trans (respects_acceptRumor _ header rumor)
          split
          · exact accepted
          · exact accepted.trans (later path (i + 1) _)
      · exact later path (i + 1) n

theorem respects_handleNested (n : Node) (c : List Nat → RumorChoice) (header : Header)
    (message : Nested) : Respects n (n.handleNested c header message).outcome.node :=
  (respects_nestedLoop c header message [] 0 n).trans (respects_finishRumors _ _ _ _ _)

/-! ## Runs -/

/-- One change keeps a consistent node consistent exactly when it sets no other route than the
direct one to the node itself or a neighbor. -/
theorem Consistent.change_iff (consistent : n.Consistent) (e : Change) :
    (n.change e).Consistent ↔ n.SetsDirect e := by
  cases e with
  | addPeer addrs => exact ⟨fun _ => trivial, fun _ => consistent.addPeer addrs⟩
  | setRoutingEntry origin relayAddr => exact consistent.setRoutingEntry_iff origin relayAddr
  | rumors c header message =>
      exact ⟨fun _ => trivial, fun _ => (n.respects_handleNested c header message).consistent
        consistent⟩

/-- **Routes and neighbors stay consistent** along a run if and only if no routing entry is set for
the node itself or a neighbor other than the direct one. -/
theorem consistent_along_iff (address : GoString) (ackTimeout : Nat) (changes : List Change) :
    Run.Always change (fun n e => (n.change e).Consistent) (newPeer address ackTimeout) changes ↔
      Run.Always change SetsDirect (newPeer address ackTimeout) changes :=
  Run.always_congr (consistent_newPeer address ackTimeout)
    (fun _ e consistent => consistent.change_iff e)
    fun _ e consistent sets => (consistent.change_iff e).mpr sets

/-- A neighbor is added and its route is deleted; gossip still picks it. -/
theorem deleted_neighbor :
    ¬ Run.Always change (fun n e => (n.change e).Consistent) (newPeer (str "127.0.0.1:1") 0)
      [.addPeer [str "127.0.0.1:2"], .setRoutingEntry (str "127.0.0.1:2") []] := by
  rintro ⟨-, consistent, -⟩
  have route := consistent.direct (str "127.0.0.1:2") (by decide +kernel)
  have deleted : ((newPeer (str "127.0.0.1:1") 0).change (.addPeer [str "127.0.0.1:2"])
    |>.change (.setRoutingEntry (str "127.0.0.1:2") [])).routingTable.get (str "127.0.0.1:2") =
      none := by decide +kernel
  rw [deleted] at route
  cases route

end Node

end Peerster.Gossip
