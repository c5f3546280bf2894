import Peerster.Gossip.Views
import Peerster.Lib.Run

/-!
# Gossip between nodes

Nodes that gossip over a network that may lose, delay, duplicate and reorder packets: a packet once
handed to a socket may arrive at its address any number of times, at any later time, or never.  A
rumor reaches a node by a broadcast, by forwarding, by a resend or by the anti-entropy, and all of
them pass on rumors that a node holds or has received.  So whatever is true of every rumor in the
databases, the goroutines and the packets stays true as long as it is true of new broadcasts
(`Node.step_keeps`).  Taking for this that a rumor is the broadcast its origin and number say gives
agreement (`reachable_agreement`).
-/

namespace Peerster.Gossip

/-! ## What a handler passes on -/

/-- The rumors a goroutine will send. -/
def Task.carried : Task → List Rumor
  | .broadCastRoutine rumors => rumors
  | .waitForAck pkt _ _ => pkt.msg.carried

/-- Every rumor in the packets has the property `P`. -/
def Carries (P : Rumor → Prop) (sent : List Sent) : Prop :=
  ∀ p ∈ sent, ∀ r ∈ p.2.msg.carried, P r

theorem carries_nil (P : Rumor → Prop) : Carries P [] := by
  intro p mem
  cases mem

theorem Carries.append {P : Rumor → Prop} {sent sent' : List Sent} (left : Carries P sent)
    (right : Carries P sent') : Carries P (sent ++ sent') := by
  intro p mem
  rcases List.mem_append.mp mem with mem | mem
  · exact left p mem
  · exact right p mem

theorem carries_singleton {P : Rumor → Prop} {dest : GoString} {pkt : Packet}
    (carried : ∀ r ∈ pkt.msg.carried, P r) : Carries P [(dest, pkt)] := by
  intro p mem
  rw [List.mem_singleton.mp mem]
  exact carried

namespace Node

/-- Every rumor a node holds or will send has the property `P`, and no sequence number it has seen
is beyond `bound`. -/
structure Sound (P : Rumor → Prop) (bound : GoString → Nat) (n : Node) : Prop where
  rumorDB : Holds P n.rumorDB
  receivedSeq : ∀ origin s, n.receivedSeq.get origin = some s → s ≤ bound origin
  tasks : ∀ task ∈ n.tasks, ∀ r ∈ task.carried, P r

/-- A call from `n` to `n'` that sends `sent`: what is known of the rumors stays known, and the node
keeps its address and its own sequence number. -/
structure Keeps (P : Rumor → Prop) (bound : GoString → Nat) (n n' : Node) (sent : List Sent) :
    Prop where
  sound : n'.Sound P bound
  carries : Carries P sent
  address : n'.address = n.address
  sequenceNumber : n'.sequenceNumber = n.sequenceNumber

section Keeps

variable {P : Rumor → Prop} {bound : GoString → Nat} {n n' n'' : Node} {sent sent' : List Sent}

theorem Sound.keeps (sound : n.Sound P bound) (carries : Carries P sent) :
    Keeps P bound n n sent :=
  ⟨sound, carries, rfl, rfl⟩

theorem Keeps.trans (first : Keeps P bound n n' sent) (second : Keeps P bound n' n'' sent') :
    Keeps P bound n n'' (sent ++ sent') :=
  ⟨second.sound, first.carries.append second.carries, second.address.trans first.address,
    second.sequenceNumber.trans first.sequenceNumber⟩

/-- Fields that hold no rumors may change freely. -/
theorem Sound.of_same (sound : n.Sound P bound) (rumorDB : n'.rumorDB = n.rumorDB)
    (receivedSeq : n'.receivedSeq = n.receivedSeq) (tasks : n'.tasks = n.tasks) :
    n'.Sound P bound :=
  ⟨rumorDB ▸ sound.rumorDB, receivedSeq ▸ sound.receivedSeq, tasks ▸ sound.tasks⟩

/-- A goroutine that carries rumors with the property may be added. -/
theorem Sound.spawn (sound : n.Sound P bound) {task : Task} (rumorDB : n'.rumorDB = n.rumorDB)
    (receivedSeq : n'.receivedSeq = n.receivedSeq) (tasks : n'.tasks = n.tasks ++ [task])
    (carried : ∀ r ∈ task.carried, P r) : n'.Sound P bound := by
  refine ⟨rumorDB ▸ sound.rumorDB, receivedSeq ▸ sound.receivedSeq, fun task' mem => ?_⟩
  rw [tasks] at mem
  rcases List.mem_append.mp mem with mem | mem
  · exact sound.tasks task' mem
  · rw [List.mem_singleton.mp mem]
    exact carried

theorem Sound.imp {P' : Rumor → Prop} {bound' : GoString → Nat} (sound : n.Sound P bound)
    (property : ∀ r, P r → P' r) (larger : ∀ origin, bound origin ≤ bound' origin) :
    n.Sound P' bound' := by
  refine ⟨fun origin rumors found r mem => ?_, fun origin s found => ?_,
    fun task mem r carried => ?_⟩
  · have held := sound.rumorDB origin rumors found r mem
    exact ⟨held.1, property r held.2⟩
  · exact (sound.receivedSeq origin s found).trans (larger origin)
  · exact property r (sound.tasks task mem r carried)

theorem transmit_msg {c : SendChoice} {dest : GoString} {msg : Message} {pkt : Packet}
    (sent : n.transmit c dest msg = some pkt) : pkt.msg = msg := by
  unfold transmit at sent
  split at sent
  · cases sent
    rfl
  · cases sent

theorem SendsStatus.carries (statuses : n.SendsStatus sent) : Carries P sent := by
  intro p mem r carried
  obtain ⟨c, packet⟩ := statuses p mem
  rw [packet] at carried
  cases carried

/-! ## Statuses -/

theorem sendMissingRumors_carries {c : StatusChoice} {source : GoString}
    {missing : FinMap GoString (List Rumor)}
    (collected : ∀ origin rumors, missing.get origin = some rumors → ∀ r ∈ rumors, P r) :
    Carries P (n.sendMissingRumors c source missing) := by
  have all : ∀ r ∈ (FinMap.values c.missingOrder missing).flatten, P r := by
    intro r mem
    obtain ⟨rumors, listed, mem⟩ := List.mem_flatten.mp mem
    obtain ⟨origin, found⟩ := FinMap.mem_values.mp listed
    exact collected origin rumors found r mem
  rcases n.sendMissingRumors_sends c source missing with none | some
  · rw [none]
    exact carries_nil P
  · rw [some]
    exact carries_singleton all

/-- A status is answered with rumors of the database. -/
theorem handleStatusMessage_carries (c : StatusChoice) (header : Header) (view : StatusMessage)
    (supplied : ∀ origin, ∀ r ∈ n.missingRumors view origin, P r) :
    Carries P (n.handleStatusMessage c header view) := by
  obtain ⟨statuses, views, sent⟩ := n.handleStatusMessage_sends c header view
  rw [sent]
  refine views.carries.append (sendMissingRumors_carries fun origin rumors found => ?_)
  rw [compareViews_get] at found
  split at found
  · cases found
    exact supplied origin
  · cases found

/-! ## Messages without rumors -/

theorem deliverAck_keeps (sound : n.Sound P bound) (ackedPacketID : GoString) :
    Keeps P bound n (n.deliverAck ackedPacketID) [] := by
  unfold deliverAck
  split
  · exact sound.keeps (carries_nil P)
  · exact ⟨sound.of_same rfl rfl rfl, carries_nil P, rfl, rfl⟩

theorem handleAckMessage_keeps (sound : n.Sound P bound) (c c' : LayerChoice) (header : Header)
    (depth : Nat) (ackedPacketID : GoString) (view : StatusMessage) :
    Keeps P bound n (n.handleAckMessage c c' header depth ackedPacketID view).node
      (n.handleAckMessage c c' header depth ackedPacketID view).sent := by
  unfold handleAckMessage
  dsimp only
  have kept := deliverAck_keeps sound ackedPacketID
  split
  · exact kept
  · rw [notified_node, notified_sent]
    exact ⟨kept.sound, handleStatusMessage_carries _ _ _ fun _ _ mem =>
        kept.sound.rumorDB.getMissingRumors mem, kept.address,
      kept.sequenceNumber⟩

/-- Processing a message without rumors sends on only what the node holds. -/
theorem processPayload_keeps (sound : n.Sound P bound) (c : Nat → LayerChoice) (header : Header)
    (depth : Nat) (msg : Payload) :
    Keeps P bound n (n.processPayload c header depth msg).node
      (n.processPayload c header depth msg).sent := by
  induction msg generalizing depth with
  | status view =>
      unfold processPayload
      rw [notified_node, notified_sent]
      exact sound.keeps (handleStatusMessage_carries _ _ _ fun _ _ mem =>
        sound.rumorDB.getMissingRumors mem)
  | ack ackedPacketID view =>
      unfold processPayload
      rw [notified_node, notified_sent]
      exact handleAckMessage_keeps sound _ _ _ _ _ _
  | privateMessage recipients msg ih =>
      unfold processPayload
      split
      · rw [notified_node, notified_sent]
        exact ih (depth + 1)
      · rw [notified_node, notified_sent]
        exact sound.keeps (carries_nil P)
  | other type content =>
      unfold processPayload
      rw [notified_node, notified_sent]
      refine sound.keeps fun p mem r carried => ?_
      obtain ⟨send, -, rfl⟩ := List.mem_map.mp mem
      cases carried

/-! ## Rumors -/

theorem acceptRumor_keeps (sound : n.Sound P bound) (header : Header) {rumor : Rumor}
    (known : rumor.sequence ≤ bound rumor.origin) :
    Keeps P bound n (n.acceptRumor header rumor) [] := by
  have seen : Sound P bound
      { n with receivedSeq := n.receivedSeq.add rumor.origin rumor.sequence } := by
    refine ⟨sound.rumorDB, fun origin s found => ?_, sound.tasks⟩
    rw [FinMap.get_add] at found
    split at found
    · next same =>
      cases found
      rw [same]
      exact known
    · exact sound.receivedSeq origin s found
  unfold acceptRumor
  dsimp only
  split
  · unfold setRoutingEntry
    split <;> exact ⟨seen.of_same rfl rfl rfl, carries_nil P, rfl, rfl⟩
  · exact ⟨seen, carries_nil P, rfl, rfl⟩

theorem processRumorMessage_keeps (sound : n.Sound P bound) (c : Nat → LayerChoice)
    (header : Header) {rumor : Rumor} (authentic : P rumor) :
    Keeps P bound n (n.processRumorMessage c header rumor).node
      (n.processRumorMessage c header rumor).sent := by
  have stored : Sound P bound { n with rumorDB := storeRumor n.rumorDB rumor } :=
    ⟨sound.rumorDB.storeRumor authentic, sound.receivedSeq, sound.tasks⟩
  have kept := processPayload_keeps stored c header 0 rumor.msg
  exact ⟨kept.sound, kept.carries, kept.address, kept.sequenceNumber⟩

theorem sendAckMessage_carries {c : SendChoice} {header : Header} {ack : Sent}
    (sent : n.sendAckMessage c header = .ok ack) : Carries P [ack] := by
  unfold sendAckMessage at sent
  split at sent
  · cases sent
  · split at sent
    · cases sent
    · cases sent
      refine carries_singleton fun r mem => ?_
      cases mem

/-- The loop stores rumors of the packet and sends nothing else. -/
theorem rumorLoop_keeps (known : ∀ r, P r → r.sequence ≤ bound r.origin) (c : RumorChoice)
    (header : Header) {rumors : List Rumor} (authentic : ∀ r ∈ rumors, P r) (i : Nat)
    (sound : n.Sound P bound) :
    Keeps P bound n (rumorLoop c header i n rumors).1.node
      (rumorLoop c header i n rumors).1.sent := by
  induction rumors generalizing i n with
  | nil => exact sound.keeps (carries_nil P)
  | cons rumor rumors ih =>
      have here : P rumor := authentic rumor List.mem_cons_self
      have rest : ∀ r ∈ rumors, P r := fun r mem => authentic r (List.mem_cons_of_mem rumor mem)
      unfold rumorLoop
      split
      · have processed := processRumorMessage_keeps sound (c.embedded i) header here
        dsimp only
        split
        · exact processed
        · have accepted := acceptRumor_keeps processed.sound header (known rumor here)
          have both := processed.trans accepted
          rw [List.append_nil] at both
          split
          · exact both
          · next ack sent =>
            have later := ih rest (i + 1) both.sound
            have acked := both.sound.keeps (sendAckMessage_carries sent)
            exact both.trans (acked.trans later)
      · exact ih rest (i + 1) sound

/-- The node sends rumors and starts a goroutine that waits for the acknowledgement. -/
theorem Sound.sendsRumors (sound : n.Sound P bound) {c : SendChoice} {dest : GoString}
    {msg : Message} {pkt : Packet} (sent : n.transmit c dest msg = some pkt)
    (authentic : ∀ r ∈ msg.carried, P r) :
    Keeps P bound n { n with tasks := n.tasks ++ [.waitForAck pkt dest false] }
      [(dest, pkt)] := by
  have carried : ∀ r ∈ pkt.msg.carried, P r := by
    rw [transmit_msg sent]
    exact authentic
  exact ⟨sound.spawn rfl rfl rfl carried, carries_singleton carried, rfl, rfl⟩

theorem forwardRumorsMessage_keeps (sound : n.Sound P bound) (c : RumorChoice) (header : Header)
    {rumors : List Rumor} (authentic : ∀ r ∈ rumors, P r) :
    Keeps P bound n (n.forwardRumorsMessage c header rumors).1
      (n.forwardRumorsMessage c header rumors).2 := by
  unfold forwardRumorsMessage
  split
  · exact sound.keeps (carries_nil P)
  · dsimp only
    split
    · exact sound.keeps (carries_nil P)
    · next pkt sent => exact sound.sendsRumors sent authentic

theorem handleRumor_keeps (known : ∀ r, P r → r.sequence ≤ bound r.origin)
    (sound : n.Sound P bound) (c : RumorChoice) (header : Header) {rumors : List Rumor}
    (authentic : ∀ r ∈ rumors, P r) :
    Keeps P bound n (n.handleRumor c header rumors).node
      (n.handleRumor c header rumors).sent := by
  have looped := rumorLoop_keeps known c header authentic 0 sound
  unfold handleRumor
  dsimp only
  split
  · exact looped.trans (forwardRumorsMessage_keeps looped.sound c header authentic)
  · exact looped

/-! ## Goroutines -/

theorem broadCastRoutine_keeps (sound : n.Sound P bound) (neighbor : NeighborChoice)
    (c : SendChoice) {rumors : List Rumor} (authentic : ∀ r ∈ rumors, P r) :
    Keeps P bound n (n.broadCastRoutine neighbor c rumors).1
      (n.broadCastRoutine neighbor c rumors).2 := by
  unfold broadCastRoutine
  dsimp only
  split
  · exact sound.keeps (carries_nil P)
  · split
    · exact sound.keeps (carries_nil P)
    · next pkt sent => exact sound.sendsRumors sent authentic

theorem waitForAck_keeps (sound : n.Sound P bound) (neighbor : NeighborChoice) (c : SendChoice)
    (wakeup : Wakeup) {rumorPkt : Packet} (sentTo : GoString) (registered : Bool)
    (authentic : ∀ r ∈ rumorPkt.msg.carried, P r) :
    Keeps P bound n (n.waitForAck neighbor c wakeup rumorPkt sentTo registered).1
      (n.waitForAck neighbor c wakeup rumorPkt sentTo registered).2 := by
  unfold waitForAck
  dsimp only
  split
  · split
    · exact sound.keeps (carries_nil P)
    · exact ⟨sound.spawn rfl rfl rfl authentic, carries_nil P, rfl, rfl⟩
  · split
    · split
      · exact ⟨sound.of_same rfl rfl rfl, carries_nil P, rfl, rfl⟩
      · exact ⟨sound.spawn rfl rfl rfl authentic, carries_nil P, rfl, rfl⟩
    · exact ⟨sound.spawn rfl rfl rfl authentic, carries_nil P, rfl, rfl⟩
  · split
    · exact ⟨sound.of_same rfl rfl rfl, carries_nil P, rfl, rfl⟩
    · exact ⟨sound.spawn rfl rfl rfl authentic, carries_singleton authentic, rfl, rfl⟩
  · exact ⟨sound.spawn rfl rfl rfl authentic, carries_nil P, rfl, rfl⟩

theorem runTask_keeps (sound : n.Sound P bound) (i : Nat) (neighbor : NeighborChoice)
    (c : SendChoice) (wakeup : Wakeup) :
    Keeps P bound n (n.runTask i neighbor c wakeup).1 (n.runTask i neighbor c wakeup).2 := by
  have rest : Sound P bound { n with tasks := n.tasks.eraseIdx i } :=
    ⟨sound.rumorDB, sound.receivedSeq,
      fun task mem => sound.tasks task (List.mem_of_mem_eraseIdx mem)⟩
  unfold runTask
  dsimp only
  cases found : n.tasks[i]? with
  | none => exact sound.keeps (carries_nil P)
  | some task =>
      have carried := sound.tasks task (List.mem_of_getElem? found)
      cases task with
      | broadCastRoutine rumors =>
          have kept := broadCastRoutine_keeps rest neighbor c carried
          exact ⟨kept.sound, kept.carries, kept.address, kept.sequenceNumber⟩
      | waitForAck pkt sentTo registered =>
          have kept := waitForAck_keeps rest neighbor c wakeup sentTo registered carried
          exact ⟨kept.sound, kept.carries, kept.address, kept.sequenceNumber⟩

/-! ## Steps -/

theorem addPeer_keeps (sound : n.Sound P bound) (addrs : List GoString) :
    Keeps P bound n (n.addPeer addrs) [] := by
  induction addrs generalizing n with
  | nil => exact sound.keeps (carries_nil P)
  | cons a addrs ih =>
      unfold addPeer
      split
      · have kept := ih (n := { n with
          directPeers := n.directPeers.add a ()
          routingTable := n.routingTable.add a a }) (sound.of_same rfl rfl rfl)
        exact ⟨kept.sound, kept.carries, kept.address, kept.sequenceNumber⟩
      · exact ih sound

theorem setRoutingEntry_keeps (sound : n.Sound P bound) (origin relayAddr : GoString) :
    Keeps P bound n (n.setRoutingEntry origin relayAddr) [] := by
  unfold setRoutingEntry
  split <;> exact ⟨sound.of_same rfl rfl rfl, carries_nil P, rfl, rfl⟩

theorem sendRandomStatusMessage_carries (n : Node) (c : StatusChoice) :
    Carries P (n.sendRandomStatusMessage c) := by
  unfold sendRandomStatusMessage
  split
  · exact carries_nil P
  · exact (n.sendStatusMessage_sends _ _).carries

/-- A step that is not a broadcast passes on what the node holds. -/
theorem step_keeps (sound : n.Sound P bound) {e : Event} (quiet : ∀ msg, e ≠ .broadcast msg) :
    Keeps P bound n (n.step e).1 (n.step e).2 := by
  cases e with
  | addPeer addrs => exact addPeer_keeps sound addrs
  | setRoutingEntry origin relayAddr => exact setRoutingEntry_keeps sound origin relayAddr
  | broadcast msg => exact (quiet msg rfl).elim
  | runTask i neighbor c wakeup => exact runTask_keeps sound i neighbor c wakeup
  | antiEntropy c => exact sound.keeps (sendRandomStatusMessage_carries n c)
  | sendPayload dest header msg =>
      refine sound.keeps (carries_singleton fun r mem => ?_)
      cases mem

/-- A broadcast adds one rumor, with the next number. -/
theorem broadcast_sound (sound : n.Sound P bound) {msg : Payload}
    (authentic : P ⟨n.address, n.sequenceNumber + 1, msg⟩)
    (known : n.sequenceNumber + 1 ≤ bound n.address) : (n.broadcast msg).Sound P bound := by
  refine ⟨sound.rumorDB.storeRumor authentic, fun origin s found => ?_, fun task mem => ?_⟩
  · simp only [broadcast, FinMap.get_add] at found
    split at found
    · next same =>
      cases found
      rw [same]
      exact known
    · exact sound.receivedSeq origin s found
  · rcases List.mem_append.mp mem with mem | mem
    · exact sound.tasks task mem
    · rw [List.mem_singleton.mp mem]
      intro r carried
      rw [List.mem_singleton.mp carried]
      exact authentic

/-- Handling a packet passes on what the node holds and what the packet carries. -/
theorem handleIncomingPacket_keeps (known : ∀ r, P r → r.sequence ≤ bound r.origin)
    (sound : n.Sound P bound) (c : PacketChoice) {pkt : Packet}
    (authentic : ∀ r ∈ pkt.msg.carried, P r) :
    Keeps P bound n (n.handleIncomingPacket c pkt).node (n.handleIncomingPacket c pkt).sent := by
  unfold handleIncomingPacket
  split
  · cases decoded : pkt.msg with
    | rumors rumors =>
        rw [decoded] at authentic
        exact handleRumor_keeps known sound c.rumor pkt.header authentic
    | payload msg => exact processPayload_keeps sound c.payload pkt.header 0 msg
  · refine sound.keeps ?_
    unfold relayPacket
    dsimp only
    split
    · exact carries_singleton authentic
    · exact carries_nil P

end Keeps

end Node

/-! ## The network -/

/-- The nodes by address, every packet ever handed to a socket, and the messages each node has
broadcast so far. -/
structure Network where
  nodes : GoString → Node
  sent : List Sent
  broadcasts : GoString → List Payload

/-- A step of the network: a node does something of its own, or a packet arrives. -/
inductive Action : Type
  | act (address : GoString) (e : Event)
  | deliver (i : Nat) (c : PacketChoice)

namespace Network

/-- All nodes start empty. -/
def initial (ackTimeout : GoString → Nat) : Network :=
  ⟨fun address => newPeer address (ackTimeout address), [], fun _ => []⟩

/-- The messages broadcast, once a node has done something of its own. -/
def logged (broadcasts : GoString → List Payload) (address : GoString) :
    Event → GoString → List Payload
  | .broadcast msg => Function.update broadcasts address (broadcasts address ++ [msg])
  | _ => broadcasts

/-- One step.  A packet that has arrived may arrive again. -/
def step (net : Network) : Action → Network
  | .act address e =>
      let after := (net.nodes address).step e
      ⟨Function.update net.nodes address after.1, net.sent ++ after.2,
        logged net.broadcasts address e⟩
  | .deliver i c =>
      match net.sent[i]? with
      | none => net
      | some (address, pkt) =>
          let o := (net.nodes address).handleIncomingPacket c pkt
          ⟨Function.update net.nodes address o.node, net.sent ++ o.sent, net.broadcasts⟩

theorem step_sent (net : Network) (a : Action) : net.sent <+: (net.step a).sent := by
  cases a with
  | act address e => exact List.prefix_append _ _
  | deliver i c =>
      cases found : net.sent[i]? with
      | none => simp only [step, found, List.prefix_rfl]
      | some arriving => simp only [step, found, List.prefix_append]

/-- Packets keep their index. -/
theorem run_sent (net : Network) (actions : List Action) {i : Nat} {p : Sent}
    (found : net.sent[i]? = some p) : (Run.run step net actions).sent[i]? = some p := by
  have extends' : net.sent <+: (Run.run step net actions).sent :=
    Run.run_invariant (I := fun net' : Network => net.sent <+: net'.sent) (List.prefix_refl _)
      (fun _ a before => before.trans (step_sent _ a)) actions
  obtain ⟨more, same⟩ := extends'
  obtain ⟨inside, -⟩ := List.getElem?_eq_some_iff.mp found
  rw [← same, List.getElem?_append_left inside, found]

/-- The rumor is in the database of the node. -/
def Held (net : Network) (address : GoString) (r : Rumor) : Prop :=
  ∃ key rumors, (net.nodes address).rumorDB.get key = some rumors ∧ r ∈ rumors

/-- Gossip agreement: a rumor that a node holds has a number its origin has reached and embeds the
message its origin broadcast with that number; so nodes that hold a rumor of one origin and number
hold the same message; and no node has seen a number its origin has not reached. -/
structure Agreement (net : Network) : Prop where
  authentic : ∀ address r, net.Held address r →
    1 ≤ r.sequence ∧ r.sequence ≤ (net.nodes r.origin).sequenceNumber ∧
      (net.broadcasts r.origin)[r.sequence - 1]? = some r.msg
  unique : ∀ address address' r r', net.Held address r → net.Held address' r' →
    r.origin = r'.origin → r.sequence = r'.sequence → r.msg = r'.msg
  receivedSeq : ∀ address origin s, (net.nodes address).receivedSeq.get origin = some s →
    s ≤ (net.nodes origin).sequenceNumber

/-- The rumor embeds the message that its origin broadcast with its number. -/
def Authentic (broadcasts : GoString → List Payload) (r : Rumor) : Prop :=
  1 ≤ r.sequence ∧ (broadcasts r.origin)[r.sequence - 1]? = some r.msg

/-- How far the numbers of an origin go. -/
def reached (broadcasts : GoString → List Payload) (origin : GoString) : Nat :=
  (broadcasts origin).length

/-- In every node, goroutine and packet there are only authentic rumors, and the counter of a node
is the number of its broadcasts. -/
structure Inv (net : Network) : Prop where
  nodes : ∀ address, (net.nodes address).Sound (Authentic net.broadcasts) (reached net.broadcasts)
  sent : Carries (Authentic net.broadcasts) net.sent
  address : ∀ address, (net.nodes address).address = address
  sequenceNumber : ∀ address,
    (net.nodes address).sequenceNumber = reached net.broadcasts address

theorem Authentic.le_reached {broadcasts : GoString → List Payload} {r : Rumor}
    (authentic : Authentic broadcasts r) : r.sequence ≤ reached broadcasts r.origin := by
  obtain ⟨positive, found⟩ := authentic
  obtain ⟨inside, -⟩ := List.getElem?_eq_some_iff.mp found
  unfold reached
  omega

/-- Broadcasts are only ever added, so authentic rumors stay authentic. -/
theorem Authentic.mono {broadcasts broadcasts' : GoString → List Payload}
    (grows : ∀ origin, broadcasts origin <+: broadcasts' origin) {r : Rumor}
    (authentic : Authentic broadcasts r) : Authentic broadcasts' r := by
  obtain ⟨positive, found⟩ := authentic
  obtain ⟨more, extended⟩ := grows r.origin
  obtain ⟨inside, -⟩ := List.getElem?_eq_some_iff.mp found
  refine ⟨positive, ?_⟩
  rw [← extended, List.getElem?_append_left inside]
  exact found

theorem initial_inv (ackTimeout : GoString → Nat) : (initial ackTimeout).Inv := by
  refine ⟨fun address => ⟨?_, ?_, ?_⟩, carries_nil _, fun _ => rfl, fun _ => rfl⟩
  · intro origin rumors found
    cases found
  · intro origin s found
    cases found
  · intro task mem
    cases mem

/-- A call that passes on authentic rumors and logs no broadcast keeps the invariant. -/
theorem Inv.kept {net : Network} (inv : net.Inv) {address : GoString} {n : Node} {sent : List Sent}
    (kept : Node.Keeps (Authentic net.broadcasts) (reached net.broadcasts) (net.nodes address) n
      sent) :
    Inv ⟨Function.update net.nodes address n, net.sent ++ sent, net.broadcasts⟩ := by
  refine ⟨?_, inv.sent.append kept.carries, ?_, ?_⟩
  · apply (Function.forall_update_iff net.nodes fun _ n =>
      n.Sound (Authentic net.broadcasts) (reached net.broadcasts)).mpr
    exact ⟨kept.sound, fun other _ => inv.nodes other⟩
  · apply (Function.forall_update_iff net.nodes fun other n => n.address = other).mpr
    exact ⟨kept.address.trans (inv.address address), fun other _ => inv.address other⟩
  · apply (Function.forall_update_iff net.nodes fun other n =>
      n.sequenceNumber = reached net.broadcasts other).mpr
    exact ⟨kept.sequenceNumber.trans (inv.sequenceNumber address),
      fun other _ => inv.sequenceNumber other⟩

theorem prefix_update (broadcasts : GoString → List Payload) (address : GoString) (msg : Payload)
    (origin : GoString) :
    broadcasts origin <+:
      Function.update broadcasts address (broadcasts address ++ [msg]) origin := by
  by_cases own : origin = address
  · rw [own, Function.update_self]
    exact List.prefix_append _ _
  · rw [Function.update_of_ne own]

/-- A broadcast keeps the invariant: its rumor is authentic once it is logged. -/
theorem Inv.broadcast {net : Network} (inv : net.Inv) (address : GoString) (msg : Payload) :
    Inv ⟨Function.update net.nodes address ((net.nodes address).broadcast msg), net.sent ++ [],
      Function.update net.broadcasts address (net.broadcasts address ++ [msg])⟩ := by
  have grows := prefix_update net.broadcasts address msg
  have own := inv.address address
  have number := inv.sequenceNumber address
  have longer : ∀ origin, reached net.broadcasts origin ≤
      reached (Function.update net.broadcasts address (net.broadcasts address ++ [msg])) origin :=
    fun origin => (grows origin).length_le
  have nodes : ∀ other, (net.nodes other).Sound
      (Authentic (Function.update net.broadcasts address (net.broadcasts address ++ [msg])))
      (reached (Function.update net.broadcasts address (net.broadcasts address ++ [msg]))) :=
    fun other => (inv.nodes other).imp (fun _ authentic => authentic.mono grows) longer
  have next : reached (Function.update net.broadcasts address (net.broadcasts address ++ [msg]))
      address = (net.nodes address).sequenceNumber + 1 := by
    rw [number, reached, reached, Function.update_self, List.length_append, List.length_singleton]
  refine ⟨?_, ?_, ?_, ?_⟩
  · apply (Function.forall_update_iff net.nodes fun _ n => n.Sound
      (Authentic (Function.update net.broadcasts address (net.broadcasts address ++ [msg])))
      (reached (Function.update net.broadcasts address (net.broadcasts address ++ [msg])))).mpr
    refine ⟨Node.broadcast_sound (nodes address) ⟨Nat.succ_pos _, ?_⟩ ?_,
      fun other _ => nodes other⟩
    · rw [own, number, Function.update_self, reached]
      exact List.getElem?_concat_length
    · rw [own, next]
  · rw [List.append_nil]
    exact fun p mem r carried => (inv.sent p mem r carried).mono grows
  · apply (Function.forall_update_iff net.nodes fun other n => n.address = other).mpr
    exact ⟨own, fun other _ => inv.address other⟩
  · apply (Function.forall_update_iff net.nodes fun other n => n.sequenceNumber =
      reached (Function.update net.broadcasts address (net.broadcasts address ++ [msg])) other).mpr
    refine ⟨next.symm, fun other different => ?_⟩
    rw [reached, Function.update_of_ne different]
    exact inv.sequenceNumber other

theorem Inv.step {net : Network} (inv : net.Inv) (a : Action) : (net.step a).Inv := by
  cases a with
  | act address e =>
      cases e with
      | broadcast msg => exact inv.broadcast address msg
      | addPeer addrs => exact inv.kept (Node.step_keeps (inv.nodes address) (by simp))
      | setRoutingEntry origin relayAddr =>
          exact inv.kept (Node.step_keeps (inv.nodes address) (by simp))
      | runTask i neighbor c wakeup =>
          exact inv.kept (Node.step_keeps (inv.nodes address) (by simp))
      | antiEntropy c => exact inv.kept (Node.step_keeps (inv.nodes address) (by simp))
      | sendPayload dest header msg =>
          exact inv.kept (Node.step_keeps (inv.nodes address) (by simp))
  | deliver i c =>
      cases found : net.sent[i]? with
      | none =>
          simp only [Network.step, found]
          exact inv
      | some packet =>
          simp only [Network.step, found]
          have carried := inv.sent packet (List.mem_of_getElem? found)
          exact inv.kept (Node.handleIncomingPacket_keeps (fun _ authentic => authentic.le_reached)
            (inv.nodes packet.1) c carried)

theorem Inv.agreement {net : Network} (inv : net.Inv) : net.Agreement := by
  have held : ∀ address r, net.Held address r → Authentic net.broadcasts r := by
    intro address r held
    obtain ⟨key, rumors, found, mem⟩ := held
    exact ((inv.nodes address).rumorDB key rumors found r mem).2
  refine ⟨fun address r holds => ?_, ?_, fun address origin s found => ?_⟩
  · have authentic := held address r holds
    rw [inv.sequenceNumber r.origin]
    exact ⟨authentic.1, authentic.le_reached, authentic.2⟩
  · intro address address' r r' holds holds' origin sequence
    have left := (held address r holds).2
    have right := (held address' r' holds').2
    rw [origin, sequence, right] at left
    exact (Option.some.inj left).symm
  · rw [inv.sequenceNumber origin]
    exact (inv.nodes address).receivedSeq origin s found

/-- **Gossip agreement.**  In every state that any number of nodes reach from the start, every rumor
that a node holds is the broadcast its origin and number say. -/
theorem reachable_agreement (ackTimeout : GoString → Nat) (actions : List Action) :
    (Run.run step (initial ackTimeout) actions).Agreement := by
  have inv : (Run.run step (initial ackTimeout) actions).Inv :=
    Run.run_invariant (initial_inv ackTimeout) (fun _ a inv => inv.step a) actions
  exact inv.agreement

end Network

end Peerster.Gossip
