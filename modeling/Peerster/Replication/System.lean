import Peerster.Chain.Replicas
import Peerster.Gossip.Convergence
import Peerster.Gossip.Payloads

/-!
# Nodes that gossip their blocks

Gossip and the name chain of the same nodes.  `attemptToMine` broadcasts a block in a rumor before
it adds it; the other nodes add it when `handleRumor` processes the rumor.  What `ProcessPacket`
returns for a message of the chain is what its handler returns, and a rumor whose message fails is
not accepted.  A handler that never returns never gives the listener back.  No notifications are
registered, so `ProcessPacket` has no other reason to fail. -/

namespace Peerster.Replication

/-! ## Messages of the chain -/

/-- The standard library, and what `GetMessage` makes of the payloads of the two messages. -/
structure Env where
  lib : Stdlib
  blockMessage : Bytes → Except GoString Block
  transactionMessage : Bytes → Except GoString Transaction

/-- The type of a `BlockMessage`. -/
def blockType : GoString := str "BlockMessage"

/-- The type of a `TransactionMessage`. -/
def transactionType : GoString := str "transaction"

/-- The encoding of a `BlockMessage`, given that of its block. -/
def blockContent (data : Bytes) : Bytes := str "\x7b\"Block\":" ++ data ++ str "\x7d"

/-- `MarshalMessage` on the `BlockMessage` with a block. -/
def Env.marshalBlockMessage (env : Env) (block : Block) : Option Gossip.Payload :=
  (env.lib.marshalBlock block).map fun data => .other blockType (blockContent data)

/-- The handler of a message that is embedded in a rumor or a private message, as far as the chain
goes; a payload that cannot be decoded is an error without a call. -/
def Env.process (env : Env) (amb : Ambient) (address : GoString) (n : Node) :
    Gossip.Payload → Node × Return
  | .other type content =>
      if type = blockType then
        match env.blockMessage content with
        | .error err => (n, .error err)
        | .ok block => n.handleBlockMessage env.lib amb block
      else if type = transactionType then
        match env.transactionMessage content with
        | .error err => (n, .error err)
        | .ok tx => n.handleTransactionMessage env.lib amb tx
      else (n, .ok)
  | .privateMessage recipients msg =>
      if recipients.contains address then env.process amb address n msg else (n, .ok)
  | .status _ => (n, .ok)
  | .ack _ _ => (n, .ok)

/-! ## What gossip is told -/

/-- The result of a call as gossip sees it: whether there is an error, whichever it is.  Gossip does
not get past a call that hangs. -/
def told (handled : Option GoString) : Return → Bool
  | .ok => handled.isNone
  | .error _ => handled.isSome
  | .hangs => handled.isSome

/-- The choices that gossip is given for a message of the chain agree with its handler. -/
def agrees (address : GoString) (result : Return) (c : Nat → Gossip.LayerChoice) :
    Nat → Gossip.Payload → Bool
  | depth, .other type _ =>
      if type = blockType ∨ type = transactionType then
        told (c depth).handled result && (c depth).notifyError.isNone
      else true
  | depth, .privateMessage recipients msg =>
      if recipients.contains address then
        (c depth).notifyError.isNone && agrees address result c (depth + 1) msg
      else true
  | _, .status _ => true
  | _, .ack _ _ => true

/-- A message that is processed, the choices that gossip is given for it, and the environment of the
call of its handler. -/
structure Processing where
  msg : Gossip.Payload
  choices : Nat → Gossip.LayerChoice
  amb : Ambient

/-- A message that gossip executes, unless it is inside another one: the handler of that one calls
its handler. -/
def ofExecution (c : Gossip.PacketChoice) (amb : Nat → Ambient) (e : Gossip.Execution) :
    Option Processing :=
  if e.depth = 0 then
    match e.rumor with
    | none => some ⟨e.msg, c.payload, amb 0⟩
    | some (i, _) => some ⟨e.msg, c.rumor.embedded i, amb i⟩
  else none

/-- The messages that a node processes on a packet, in order. -/
def processings (n : Gossip.Node) (c : Gossip.PacketChoice) (amb : Nat → Ambient)
    (pkt : Gossip.Packet) : List Processing :=
  (n.handleIncomingPacket c pkt).executed.filterMap (ofExecution c amb)

/-- The chain after the messages have been processed. -/
def Env.processAll (env : Env) (address : GoString) (n : Node) (ps : List Processing) : Node :=
  ps.foldl (fun n p => (env.process p.amb address n p.msg).1) n

/-- Gossip is told the results of all of them. -/
def Env.agreesAll (env : Env) (address : GoString) : Node → List Processing → Bool
  | _, [] => true
  | n, p :: ps =>
      let (n', result) := env.process p.amb address n p.msg
      agrees address result p.choices 0 p.msg && env.agreesAll address n' ps

/-! ## Steps -/

/-- The nodes as gossip sees them, and the chain of each. -/
structure System where
  net : Gossip.Network
  chains : GoString → Node

/-- A step: something of its own that gossip does, a packet that arrives, or one of the two halves
of a mining attempt. -/
inductive Action : Type
  | gossip (address : GoString) (e : Gossip.Event)
  | deliver (i : Nat) (c : Gossip.PacketChoice) (amb : Nat → Ambient)
  | startMining (address : GoString) (amb : Ambient)
  | finishMining (address : GoString) (amb : Ambient) (polls : Nat)

/-- All nodes have started, each on its own store. -/
def initial (env : Env) (ackTimeout : GoString → Nat) (order : GoString → UTXOOrder)
    (bcStore : GoString → Store) : System where
  net := Gossip.Network.initial ackTimeout
  chains address := Node.start env.lib (order address) (Node.newPeer (bcStore address))

/-- The message that an attempt broadcasts. -/
def Env.published (env : Env) (n : Node) (amb : Ambient) (polls : Nat) : Option Gossip.Payload :=
  (n.applied env.lib (.finishMining amb polls)).bind fun (_, block) => env.marshalBlockMessage block

/-- Where a packet arrives, and the messages processed on it.  The listener of the node runs, and
gossip is told what the handlers of the chain return. -/
def System.arrival (env : Env) (s : System) (i : Nat) (c : Gossip.PacketChoice)
    (amb : Nat → Ambient) : Option (GoString × List Processing) :=
  match s.net.sent[i]? with
  | none => none
  | some (address, pkt) =>
      let n := s.chains address
      let ps := processings (s.net.nodes address) c amb pkt
      if n.listening = true ∧ env.agreesAll address n ps = true then some (address, ps) else none

/-- What gossip does in a step. -/
def System.gossips (env : Env) (s : System) : Action → List Gossip.Action
  | .gossip address e => [.act address e]
  | .deliver i c amb =>
      match s.arrival env i c amb with
      | none => []
      | some _ => [.deliver i c]
  | .startMining _ _ => []
  | .finishMining address amb polls =>
      match env.published (s.chains address) amb polls with
      | none => []
      | some msg => [.act address (.broadcast msg)]

/-- What becomes of the chains in a step. -/
def System.chainsAfter (env : Env) (s : System) : Action → GoString → Node
  | .gossip _ _ => s.chains
  | .deliver i c amb =>
      match s.arrival env i c amb with
      | none => s.chains
      | some (address, ps) =>
          Function.update s.chains address (env.processAll address (s.chains address) ps)
  | .startMining address amb =>
      Function.update s.chains address ((s.chains address).step env.lib (.startMining amb))
  | .finishMining address amb polls =>
      Function.update s.chains address ((s.chains address).step env.lib (.finishMining amb polls))

/-- One step of the system. -/
def step (env : Env) (s : System) (a : Action) : System :=
  ⟨Run.run Gossip.Network.step s.net (s.gossips env a), s.chainsAfter env a⟩

theorem arrival_eq_some {env : Env} {s : System} {address : GoString} {i : Nat}
    {c : Gossip.PacketChoice} {amb : Nat → Ambient} {ps : List Processing}
    (arrival : s.arrival env i c amb = some (address, ps)) :
    ∃ pkt, s.net.sent[i]? = some (address, pkt) ∧ (s.chains address).listening = true ∧
      ps = processings (s.net.nodes address) c amb pkt ∧
      env.agreesAll address (s.chains address) ps = true := by
  unfold System.arrival at arrival
  split at arrival
  · cases arrival
  · next found =>
    dsimp only at arrival
    split at arrival
    · next arrives =>
      cases arrival
      exact ⟨_, found, arrives.1, rfl, arrives.2⟩
    · cases arrival

/-! ## What is processed -/

section Processings

variable {c : Gossip.PacketChoice} {amb : Nat → Ambient}

theorem ofExecution_of_inside (e : Gossip.Execution) (inside : e.depth ≠ 0) :
    ofExecution c amb e = none := if_neg inside

/-- The message of a rumor that is tried is processed, with success or without. -/
theorem ofExecution_processRumorMessage (c : Gossip.PacketChoice) (amb : Nat → Ambient)
    (g : Gossip.Node) (header : Gossip.Header) (i : Nat) (rumor : Gossip.Rumor) :
    ((g.processRumorMessage (c.rumor.embedded i) header rumor).executed.map
        (Gossip.Execution.within i rumor)).filterMap (ofExecution c amb) =
      [⟨rumor.msg, c.rumor.embedded i, amb i⟩] := by
  obtain ⟨err, processed, -⟩ := g.filterMap_processRumorMessage
    (f := ofExecution c amb) ofExecution_of_inside (c.rumor.embedded i) header i rumor
  rw [processed]
  rfl

/-- So is the message of a packet without rumors. -/
theorem ofExecution_processPayload (g : Gossip.Node) (header : Gossip.Header)
    (msg : Gossip.Payload) :
    (g.processPayload c.payload header 0 msg).executed.filterMap (ofExecution c amb) =
      [⟨msg, c.payload, amb 0⟩] := by
  obtain ⟨inside, executed, deeper⟩ := g.processPayload_executed c.payload header 0 msg
  have none : inside.filterMap (ofExecution c amb) = [] :=
    List.filterMap_eq_nil_iff.mpr fun e mem =>
      ofExecution_of_inside e (Nat.ne_of_gt (deeper e mem).2)
  rw [executed, List.filterMap_cons, none]
  rfl

/-- What is processed on a packet is the message of a rumor that it carries, or its own. -/
theorem mem_processings {g : Gossip.Node} {pkt : Gossip.Packet} {p : Processing}
    (mem : p ∈ processings g c amb pkt) :
    (∃ r ∈ pkt.msg.carried, r.msg = p.msg) ∨ pkt.msg = .payload p.msg := by
  unfold processings Gossip.Node.handleIncomingPacket at mem
  split at mem
  · cases carried : pkt.msg with
    | rumors rumors =>
        rw [carried] at mem
        dsimp only at mem
        rw [Gossip.Node.handleRumor_executed] at mem
        obtain ⟨e, executed, processed⟩ := List.mem_filterMap.mp mem
        obtain ⟨j, r, inside, g', -, -, tried⟩ := Gossip.Node.mem_executed_rumorLoop executed
        obtain ⟨of, own⟩ := Gossip.Node.mem_executed_processRumorMessage tried
        unfold ofExecution at processed
        rw [of] at processed
        split at processed
        · next outer =>
          cases processed
          exact .inl ⟨r, inside, (own outer).1.symm⟩
        · cases processed
    | payload msg =>
        rw [carried] at mem
        dsimp only at mem
        rw [ofExecution_processPayload] at mem
        rw [List.mem_singleton.mp mem]
        exact .inr rfl
  · cases mem

end Processings

/-! ## What a message does to a chain -/

/-- The type of a message, or of the message within a private message. -/
def innerType : Gossip.Payload → Option GoString
  | .other type _ => some type
  | .privateMessage _ msg => innerType msg
  | .status _ => none
  | .ack _ _ => none

/-- A message without a block. -/
def Blockless (msg : Gossip.Payload) : Prop := innerType msg ≠ some blockType

theorem blockless_closed : Gossip.Closed Blockless where
  status _ found := by cases found
  ack _ _ found := by cases found

theorem handleTransactionMessage_frame (lib : Stdlib) (amb : Ambient) (n : Node)
    (tx : Transaction) :
    (n.handleTransactionMessage lib amb tx).1.view = n.view ∧
      (n.handleTransactionMessage lib amb tx).1.listening = n.listening := by
  unfold Node.handleTransactionMessage
  split <;> exact ⟨rfl, rfl⟩

/-- Without a block nothing changes that the chain is about. -/
theorem process_blockless (env : Env) (amb : Ambient) (address : GoString) (n : Node)
    {msg : Gossip.Payload} (blockless : Blockless msg) :
    (env.process amb address n msg).1.view = n.view ∧
      (env.process amb address n msg).1.listening = n.listening := by
  induction msg with
  | status view => exact ⟨rfl, rfl⟩
  | ack ackedPacketID view => exact ⟨rfl, rfl⟩
  | privateMessage recipients msg ih =>
      unfold Env.process
      split
      · exact ih blockless
      · exact ⟨rfl, rfl⟩
  | other type content =>
      have notBlock : type ≠ blockType := fun same => blockless (congrArg some same)
      unfold Env.process
      rw [if_neg notBlock]
      split
      · split
        · exact ⟨rfl, rfl⟩
        · exact handleTransactionMessage_frame _ _ _ _
      · exact ⟨rfl, rfl⟩

theorem addBlockToBlockchain_listening (lib : Stdlib) (order : UTXOOrder) (n : Node)
    (block : Block) : (Node.addBlockToBlockchain lib order n block).1.listening = n.listening := by
  unfold Node.addBlockToBlockchain
  split
  · rfl
  · dsimp only
    split <;> rfl

/-- A block that applies is refused, or it is added, and then the call returns or hangs. -/
theorem handleBlockMessage_cases (lib : Stdlib) (amb : Ambient) {n : Node} {block : Block}
    (applies : (Node.applyBlock .sorted n.utxoSet block).2 = none) :
    (∃ err, n.handleBlockMessage lib amb block = (n, .error err)) ∨
      (n.handleBlockMessage lib amb block).1.view = n.view.add .sorted block ∧
        ((n.handleBlockMessage lib amb block).2 = .ok ∧
            (n.handleBlockMessage lib amb block).1.listening = n.listening ∨
          (n.handleBlockMessage lib amb block).2 = .hangs ∧
            (n.handleBlockMessage lib amb block).1.listening = false) := by
  have view := Node.addBlockToBlockchain_view lib amb.utxoOrder n block
  have listening := addBlockToBlockchain_listening lib amb.utxoOrder n block
  rw [View.add_order _ .sorted] at view
  unfold Node.handleBlockMessage
  cases validateBlock lib amb n.utxoSet block with
  | error err => exact .inl ⟨err, rfl⟩
  | ok _ =>
      right
      dsimp only
      cases call : Node.addBlockToBlockchain lib amb.utxoOrder n block with
      | mk n' result =>
          rw [call] at view listening
          cases result with
          | ok => exact ⟨view, .inl ⟨rfl, listening⟩⟩
          | hangs => exact ⟨view, .inr ⟨rfl, rfl⟩⟩
          | error err =>
              have failed := Node.addBlockToBlockchain_returns_error_iff.mp
                (congrArg Prod.snd call)
              rw [Node.applyBlock_order amb.utxoOrder .sorted, applies] at failed
              cases failed

end Peerster.Replication
