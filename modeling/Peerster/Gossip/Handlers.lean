import Peerster.Gossip.Rumor

/-!
# Gossip handlers

The gossip part of a node: `Broadcast`, the handlers of rumors, statuses and acknowledgements, the
goroutines that spread a rumor and wait for its acknowledgement, and the anti-entropy routine
(`communication.go`, `handlers.go`, `rumor.go`, `status_ack.go`, `routines.go`, `heartbeat.go`).

What a call cannot know is a choice it is given: packet IDs, failures of encoding and sending,
random picks, the order of map iterations, and the result of the handlers that have nothing to do
with gossip.  A call returns the node, the packets it hands to the socket, and the messages that
`ProcessPacket` was called on, in the order of the calls.
-/

namespace Peerster.Gossip

/-- A goroutine that is still to do something. -/
inductive Task : Type
  | broadCastRoutine (rumors : List Rumor)
  | waitForAck (pkt : Packet) (neighbor : GoString) (registered : Bool)

/-- The fields of `node` that gossip reads and writes, the configured ack timeout, and the
goroutines in progress.  A channel of `ackChannel` is the acknowledgement in its buffer. -/
structure Node where
  address : GoString
  ackTimeout : Nat
  sequenceNumber : Nat
  receivedSeq : StatusMessage
  rumorDB : RumorDB
  directPeers : FinMap GoString Unit
  routingTable : FinMap GoString GoString
  ackChannel : FinMap GoString (Option GoString)
  tasks : List Task

/-- `NewPeer`. -/
def newPeer (address : GoString) (ackTimeout : Nat) : Node where
  address := address
  ackTimeout := ackTimeout
  sequenceNumber := 0
  receivedSeq := .empty
  rumorDB := .empty
  directPeers := .empty
  routingTable := FinMap.empty.add address address
  ackChannel := .empty
  tasks := []

/-- A packet handed to the socket, with the address it is sent to. -/
abbrev Sent := GoString × Packet

/-- A call of `ProcessPacket` that has returned: the rumor that its message comes from, with its
index among the rumors it came with, the depth at which the message is embedded there, the message,
and the error. -/
structure Execution where
  rumor : Option (Nat × Rumor)
  depth : Nat
  msg : Payload
  err : Option GoString

/-- A call that is made while a rumor is processed; one for a rumor inside it belongs to that. -/
def Execution.within (i : Nat) (rumor : Rumor) (e : Execution) : Execution :=
  { e with rumor := e.rumor.or (some (i, rumor)) }

/-- How a handler leaves the node, what it has sent, the error it returns, and the messages that
have been executed in it. -/
structure Outcome where
  node : Node
  sent : List Sent
  err : Option GoString
  executed : List Execution

/-! ## Choices -/

/-- One packet of the node's own: its ID, and whether encoding or sending fails. -/
structure SendChoice where
  packetID : GoString
  marshalError : Option GoString
  sendError : Option GoString

/-- A random neighbor. -/
structure NeighborChoice where
  order : FinMap.RangeOrder GoString Unit
  random : Nat

/-- What handling a status depends on. -/
structure StatusChoice where
  viewOrder : FinMap.RangeOrder GoString Nat
  missingOrder : FinMap.RangeOrder GoString (List Rumor)
  neighbor : NeighborChoice
  continueMongering : Bool
  status : SendChoice
  missing : SendChoice

/-- What processing one message depends on: for a message of another type, the result of its handler
and the packets it sends; for an acknowledgement, the error of encoding its status; and the error of
the notifications that `ProcessPacket` makes in the end. -/
structure LayerChoice where
  status : StatusChoice
  marshalError : Option GoString
  handled : Option GoString
  handlerSends : List (GoString × Header × Payload)
  notifyError : Option GoString

/-- What handling a packet of rumors depends on, for each rumor by its index and the depth of its
embedded message. -/
structure RumorChoice where
  embedded : Nat → Nat → LayerChoice
  ack : Nat → SendChoice
  neighbor : NeighborChoice
  forward : SendChoice

/-! ## Neighbors, packets, routes -/

namespace Node

/-- `getNeighbors`. -/
def getNeighbors (n : Node) (c : NeighborChoice) : List GoString := c.order.list n.directPeers

/-- `getOtherNeighbors`. -/
def getOtherNeighbors (n : Node) (c : NeighborChoice) (exclude : GoString) : List GoString :=
  (c.order.list n.directPeers).filter fun neighbor =>
    neighbor ≠ exclude ∧ neighbor ≠ n.address

/-- A packet of the node's own. -/
def packet (n : Node) (c : SendChoice) (dest : GoString) (msg : Message) : Packet :=
  ⟨⟨c.packetID, n.address, n.address, dest⟩, msg⟩

/-- Encode a message and send it in a packet of the node's own; `none` when one of the two fails. -/
def transmit (n : Node) (c : SendChoice) (dest : GoString) (msg : Message) : Option Packet :=
  match c.marshalError, c.sendError with
  | none, none => some (n.packet c dest msg)
  | _, _ => none

/-- `AddPeer`. -/
def addPeer (n : Node) : List GoString → Node
  | [] => n
  | a :: addrs =>
      if a ≠ n.address then
        addPeer { n with
          directPeers := n.directPeers.add a ()
          routingTable := n.routingTable.add a a } addrs
      else addPeer n addrs

/-- `SetRoutingEntry`. -/
def setRoutingEntry (n : Node) (origin relayAddr : GoString) : Node :=
  if relayAddr = [] then { n with routingTable := n.routingTable.remove origin }
  else { n with routingTable := n.routingTable.add origin relayAddr }

/-- `relayPacket`. -/
def relayPacket (n : Node) (c : SendChoice) (pkt : Packet) : List Sent :=
  let header : Header := ⟨c.packetID, pkt.header.source, n.address, pkt.header.destination⟩
  match n.routingTable.get header.destination, c.sendError with
  | some nextHop, none => [(nextHop, ⟨header, pkt.msg⟩)]
  | _, _ => []

/-! ## Statuses -/

/-- `createStatusMessage`. -/
def createStatusMessage (n : Node) : StatusMessage := n.receivedSeq

/-- `sendStatusMessage`. -/
def sendStatusMessage (n : Node) (c : SendChoice) (destination : GoString) : List Sent :=
  match n.transmit c destination (.payload (.status n.createStatusMessage)) with
  | none => []
  | some pkt => [(destination, pkt)]

/-- What `compareViews` has found so far. -/
structure Comparison where
  newLocal : Bool
  newRemote : Bool
  missing : FinMap GoString (List Rumor)

/-- One iteration of the first loop of `compareViews`, over the remote view. -/
def compareRemote (n : Node) (view : StatusMessage) (found : Comparison) (origin : GoString) :
    Comparison :=
  let remoteSeq := (view.get origin).getD 0
  let localSeq := (n.receivedSeq.get origin).getD 0
  if n.receivedSeq.get origin = none ∧ remoteSeq > 0 then { found with newRemote := true }
  else if remoteSeq > localSeq then { found with newRemote := true }
  else if localSeq > remoteSeq then
    { found with
      newLocal := true
      missing := found.missing.add origin
        (getMissingRumors n.rumorDB origin (remoteSeq + 1) localSeq) }
  else found

/-- One iteration of the second loop of `compareViews`, over the local view. -/
def compareLocal (n : Node) (view : StatusMessage) (found : Comparison) (origin : GoString) :
    Comparison :=
  if view.get origin = none then
    { found with
      newLocal := true
      missing := found.missing.add origin
        (getMissingRumors n.rumorDB origin 1 ((n.receivedSeq.get origin).getD 0)) }
  else found

/-- `compareViews`: the case, and the rumors the remote node misses. -/
def compareViews (n : Node) (c : StatusChoice) (view : StatusMessage) :
    Nat × FinMap GoString (List Rumor) :=
  let remote := (c.viewOrder.list view).foldl (n.compareRemote view) ⟨false, false, .empty⟩
  let found := (c.viewOrder.list n.receivedSeq).foldl (n.compareLocal view) remote
  match found.newRemote, found.newLocal with
  | true, true => (3, found.missing)
  | true, false => (1, .empty)
  | false, true => (2, found.missing)
  | false, false => (4, .empty)

/-- `sendMissingRumors`. -/
def sendMissingRumors (n : Node) (c : StatusChoice) (source : GoString)
    (missing : FinMap GoString (List Rumor)) : List Sent :=
  match (FinMap.values c.missingOrder missing).flatten with
  | [] => []
  | rumor :: rumors =>
      match n.transmit c.missing source (.rumors (rumor :: rumors)) with
      | none => []
      | some pkt => [(source, pkt)]

/-- `continueMongering`. -/
def continueMongering (n : Node) (c : StatusChoice) (source : GoString) : List Sent :=
  if c.continueMongering then
    match n.getOtherNeighbors c.neighbor source with
    | [] => []
    | neighbor :: neighbors =>
        n.sendStatusMessage c.status (getRandom (neighbor :: neighbors) c.neighbor.random)
  else []

/-- `handleStatusMessage`; it returns no error. -/
def handleStatusMessage (n : Node) (c : StatusChoice) (header : Header) (view : StatusMessage) :
    List Sent :=
  match n.compareViews c view with
  | (1, _) => n.sendStatusMessage c.status header.source
  | (2, missing) => n.sendMissingRumors c header.source missing
  | (3, missing) =>
      n.sendStatusMessage c.status header.source ++ n.sendMissingRumors c header.source missing
  | _ => n.continueMongering c header.source

/-- `sendRandomStatusMessage`, the anti-entropy. -/
def sendRandomStatusMessage (n : Node) (c : StatusChoice) : List Sent :=
  match n.getNeighbors c.neighbor with
  | [] => []
  | neighbor :: neighbors =>
      n.sendStatusMessage c.status (getRandom (neighbor :: neighbors) c.neighbor.random)

/-! ## Messages without rumors -/

/-- The end of `ProcessPacket` on a message embedded at some depth, once its handler has returned:
an error of the handler, or else of the notifications. -/
def notified (c : LayerChoice) (depth : Nat) (msg : Payload) (o : Outcome) : Outcome :=
  let err :=
    match o.err with
    | some err => some (str "failed to call handler: " ++ err)
    | none => c.notifyError
  ⟨o.node, o.sent, err, ⟨none, depth, msg, err⟩ :: o.executed⟩

@[simp] theorem notified_node (c : LayerChoice) (depth : Nat) (msg : Payload) (o : Outcome) :
    (notified c depth msg o).node = o.node := rfl

@[simp] theorem notified_sent (c : LayerChoice) (depth : Nat) (msg : Payload) (o : Outcome) :
    (notified c depth msg o).sent = o.sent := rfl

theorem notified_executed (c : LayerChoice) (depth : Nat) (msg : Payload) (o : Outcome) :
    (notified c depth msg o).executed =
      ⟨none, depth, msg, (notified c depth msg o).err⟩ :: o.executed := rfl

/-- The acknowledgement is put on the channel of the goroutine that waits for it.  Sending on a
channel whose buffer is full waits until it is drained. -/
def deliverAck (n : Node) (ackedPacketID : GoString) : Node :=
  match n.ackChannel.get ackedPacketID with
  | none => n
  | some _ => { n with ackChannel := n.ackChannel.add ackedPacketID (some ackedPacketID) }

/-- `handleAckMessage` at some depth; the status in the acknowledgement is processed one deeper. -/
def handleAckMessage (n : Node) (c c' : LayerChoice) (header : Header) (depth : Nat)
    (ackedPacketID : GoString) (view : StatusMessage) : Outcome :=
  let n := n.deliverAck ackedPacketID
  match c.marshalError with
  | some err => ⟨n, [], some err, []⟩
  | none =>
      notified c' (depth + 1) (.status view)
        ⟨n, n.handleStatusMessage c'.status header view, none, []⟩

/-- `ProcessPacket` on a message that carries no rumors, embedded at some depth.  A handler that has
nothing to do with gossip sends packets without rumors. -/
def processPayload (n : Node) (c : Nat → LayerChoice) (header : Header) : Nat → Payload → Outcome
  | depth, .status view =>
      notified (c depth) depth (.status view)
        ⟨n, n.handleStatusMessage (c depth).status header view, none, []⟩
  | depth, .ack ackedPacketID view =>
      notified (c depth) depth (.ack ackedPacketID view)
        (n.handleAckMessage (c depth) (c (depth + 1)) header depth ackedPacketID view)
  | depth, .privateMessage recipients msg =>
      if n.address ∈ recipients then
        let o := processPayload n c header (depth + 1) msg
        notified (c depth) depth (.privateMessage recipients msg)
          { o with err := o.err.map fun _ => str "Failed to process embedded message" }
      else notified (c depth) depth (.privateMessage recipients msg) ⟨n, [], none, []⟩
  | depth, .other type content =>
      notified (c depth) depth (.other type content)
        ⟨n, (c depth).handlerSends.map fun (dest, header, msg) => (dest, ⟨header, .payload msg⟩),
          (c depth).handled, []⟩

/-! ## Rumors -/

/-- `processRumorMessage`. -/
def processRumorMessage (n : Node) (c : Nat → LayerChoice) (header : Header) (rumor : Rumor) :
    Outcome :=
  let n := { n with rumorDB := storeRumor n.rumorDB rumor }
  let o := n.processPayload c header 0 rumor.msg
  { o with err := o.err.map (str "failed to process embedded message: " ++ ·) }

/-- `sendAckMessage`. -/
def sendAckMessage (n : Node) (c : SendChoice) (header : Header) : Except GoString Sent :=
  match c.marshalError with
  | some err => .error (str "failed to marshal AckMessage: " ++ err)
  | none =>
      match c.sendError with
      | some err => .error (str "failed to send AckMessage: " ++ err)
      | none => .ok (header.source, n.packet c header.source
          (.payload (.ack header.packetID n.createStatusMessage)))

/-- What `handleRumor` does to the node once the embedded message has been processed: the sequence
number of the origin, and the route to it through the node that relayed the packet. -/
def acceptRumor (n : Node) (header : Header) (rumor : Rumor) : Node :=
  let n := { n with receivedSeq := n.receivedSeq.add rumor.origin rumor.sequence }
  if n.directPeers.get rumor.origin = none ∧ rumor.origin ≠ n.address then
    n.setRoutingEntry rumor.origin header.relayedBy
  else n

/-- The loop of `handleRumor` from index `i` on; the flag is `processedRumor`. -/
def rumorLoop (c : RumorChoice) (header : Header) : Nat → Node → List Rumor → Outcome × Bool
  | _, n, [] => (⟨n, [], none, []⟩, false)
  | i, n, rumor :: rumors =>
      if rumor.sequence = (n.receivedSeq.get rumor.origin).getD 0 + 1 then
        let o := n.processRumorMessage (c.embedded i) header rumor
        let executed := o.executed.map (Execution.within i rumor)
        match o.err with
        | some err => (⟨o.node, o.sent, some err, executed⟩, true)
        | none =>
            let n := o.node.acceptRumor header rumor
            match n.sendAckMessage (c.ack i) header with
            | .error err => (⟨n, o.sent, some err, executed⟩, true)
            | .ok ack =>
                let rest := (rumorLoop c header (i + 1) n rumors).1
                (⟨rest.node, o.sent ++ ack :: rest.sent, rest.err, executed ++ rest.executed⟩, true)
      else rumorLoop c header (i + 1) n rumors

/-- `forwardRumorsMessage`; its error is only logged. -/
def forwardRumorsMessage (n : Node) (c : RumorChoice) (header : Header) (rumors : List Rumor) :
    Node × List Sent :=
  match n.getOtherNeighbors c.neighbor header.source with
  | [] => (n, [])
  | neighbor :: neighbors =>
      let randNeighbor := getRandom (neighbor :: neighbors) c.neighbor.random
      match n.transmit c.forward randNeighbor (.rumors rumors) with
      | none => (n, [])
      | some pkt =>
          ({ n with tasks := n.tasks ++ [.waitForAck pkt randNeighbor false] },
            [(randNeighbor, pkt)])

/-- `handleRumor`. -/
def handleRumor (n : Node) (c : RumorChoice) (header : Header) (rumors : List Rumor) : Outcome :=
  match rumorLoop c header 0 n rumors with
  | (o, processedRumor) =>
      if o.err = none ∧ processedRumor then
        let forwarded := o.node.forwardRumorsMessage c header rumors
        ⟨forwarded.1, o.sent ++ forwarded.2, none, o.executed⟩
      else o

/-- `Broadcast`. -/
def broadcast (n : Node) (msg : Payload) : Node :=
  let currentSequenceNumber := n.sequenceNumber
  let n := { n with sequenceNumber := currentSequenceNumber + 1 }
  let n := { n with receivedSeq := n.receivedSeq.add n.address (currentSequenceNumber + 1) }
  let rumor : Rumor := ⟨n.address, n.sequenceNumber, msg⟩
  { n with
    rumorDB := storeRumor n.rumorDB rumor
    tasks := n.tasks ++ [.broadCastRoutine [rumor]] }

/-! ## Goroutines -/

/-- What happens to a waiting `waitForAck`: it comes to run, it finds an acknowledgement, or its
timeout passes. -/
inductive Wakeup : Type
  | begins
  | acked
  | timesOut

/-- `broadCastRoutine`. -/
def broadCastRoutine (n : Node) (neighbor : NeighborChoice) (c : SendChoice)
    (rumors : List Rumor) : Node × List Sent :=
  let randomNeighbor := getRandom (n.getNeighbors neighbor) neighbor.random
  if randomNeighbor.length = 0 then (n, [])
  else
    match n.transmit c randomNeighbor (.rumors rumors) with
    | none => (n, [])
    | some pkt =>
        ({ n with tasks := n.tasks ++ [.waitForAck pkt randomNeighbor false] },
          [(randomNeighbor, pkt)])

/-- `waitForAck`: the first part, which registers the channel, and then one round of its loop. -/
def waitForAck (n : Node) (neighbor : NeighborChoice) (c : SendChoice) (wakeup : Wakeup)
    (rumorPkt : Packet) (sentTo : GoString) (registered : Bool) : Node × List Sent :=
  let packetID := rumorPkt.header.packetID
  match wakeup, registered with
  | .begins, false =>
      if n.ackTimeout = 0 then (n, [])
      else
        ({ n with
          ackChannel := n.ackChannel.add packetID none
          tasks := n.tasks ++ [.waitForAck rumorPkt sentTo true] }, [])
  | .acked, true =>
      match n.ackChannel.get packetID with
      | some (some ackedPacketID) =>
          if ackedPacketID = packetID then
            ({ n with ackChannel := n.ackChannel.remove packetID }, [])
          else
            ({ n with
              ackChannel := n.ackChannel.add packetID none
              tasks := n.tasks ++ [.waitForAck rumorPkt sentTo true] }, [])
      | _ => ({ n with tasks := n.tasks ++ [.waitForAck rumorPkt sentTo true] }, [])
  | .timesOut, true =>
      let n := { n with ackChannel := n.ackChannel.remove packetID }
      let randNeighbor := getRandom (n.getOtherNeighbors neighbor sentTo) neighbor.random
      let newPkt := n.packet c randNeighbor rumorPkt.msg
      match c.sendError with
      | some _ => (n, [])
      | none =>
          ({ n with tasks := n.tasks ++ [.waitForAck newPkt randNeighbor false] },
            [(randNeighbor, newPkt)])
  | _, _ => ({ n with tasks := n.tasks ++ [.waitForAck rumorPkt sentTo registered] }, [])

/-! ## Steps of a node -/

end Node

/-- What handling a packet depends on. -/
structure PacketChoice where
  relay : SendChoice
  payload : Nat → LayerChoice
  rumor : RumorChoice

/-- `handleIncomingPacket`, once the packet has been received. -/
def Node.handleIncomingPacket (n : Node) (c : PacketChoice) (pkt : Packet) : Outcome :=
  if pkt.header.destination = n.address then
    match pkt.msg with
    | .rumors rumors => n.handleRumor c.rumor pkt.header rumors
    | .payload msg => n.processPayload c.payload pkt.header 0 msg
  else ⟨n, n.relayPacket c.relay pkt, none, []⟩

/-- Something a node does of its own: a call of its interface, one step of a goroutine, the
anti-entropy, or a packet without rumors that another part of the node sends. -/
inductive Event : Type
  | addPeer (addrs : List GoString)
  | setRoutingEntry (origin relayAddr : GoString)
  | broadcast (msg : Payload)
  | runTask (i : Nat) (neighbor : NeighborChoice) (c : SendChoice) (wakeup : Node.Wakeup)
  | antiEntropy (c : StatusChoice)
  | sendPayload (dest : GoString) (header : Header) (msg : Payload)

namespace Node

/-- One step of the goroutine with index `i`. -/
def runTask (n : Node) (i : Nat) (neighbor : NeighborChoice) (c : SendChoice) (wakeup : Wakeup) :
    Node × List Sent :=
  let rest := { n with tasks := n.tasks.eraseIdx i }
  match n.tasks[i]? with
  | none => (n, [])
  | some (.broadCastRoutine rumors) => rest.broadCastRoutine neighbor c rumors
  | some (.waitForAck pkt sentTo registered) =>
      rest.waitForAck neighbor c wakeup pkt sentTo registered

/-- One step of a node of its own. -/
def step (n : Node) : Event → Node × List Sent
  | .addPeer addrs => (n.addPeer addrs, [])
  | .setRoutingEntry origin relayAddr => (n.setRoutingEntry origin relayAddr, [])
  | .broadcast msg => (n.broadcast msg, [])
  | .runTask i neighbor c wakeup => n.runTask i neighbor c wakeup
  | .antiEntropy c => (n, n.sendRandomStatusMessage c)
  | .sendPayload dest header msg => (n, [(dest, ⟨header, .payload msg⟩)])

end Node

/-- Sending that never fails, with a fixed packet ID. -/
def sampleSend : SendChoice := ⟨str "packet", none, none⟩

end Peerster.Gossip
