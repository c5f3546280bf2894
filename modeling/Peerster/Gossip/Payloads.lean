import Peerster.Gossip.Network

/-!
# Packets without rumors

The messages that travel outside rumors are statuses, acknowledgements, and what the other handlers
and the callers of a node send; goroutines send rumors only.  So a property of the first two, and of
what is sent by others, is one of every such message in the network (`Network.Plain.step`).
-/

namespace Peerster.Gossip

/-- A message outside rumors has the property `Q`. -/
def Message.Plain (Q : Payload → Prop) : Message → Prop
  | .rumors _ => True
  | .payload msg => Q msg

/-- The same of the packets. -/
def AllPlain (Q : Payload → Prop) (sent : List Sent) : Prop := ∀ p ∈ sent, p.2.msg.Plain Q

/-- The same of the packet that a goroutine may send again. -/
def Task.Plain (Q : Payload → Prop) : Task → Prop
  | .broadCastRoutine _ => True
  | .waitForAck pkt _ _ => pkt.msg.Plain Q

/-- What a handler of a message of another type sends has the property `Q`. -/
def LayerChoice.Sends (Q : Payload → Prop) (c : LayerChoice) : Prop :=
  ∀ send ∈ c.handlerSends, Q send.2.2

/-- What is sent while a packet is handled, by handlers of messages of another type. -/
def PacketChoice.Sends (Q : Payload → Prop) (c : PacketChoice) : Prop :=
  (∀ depth, (c.payload depth).Sends Q) ∧ ∀ i depth, (c.rumor.embedded i depth).Sends Q

/-- What a node sends of its own has the property `Q`. -/
def Event.Sends (Q : Payload → Prop) : Event → Prop
  | .sendPayload _ _ msg => Q msg
  | _ => True

/-- Statuses and acknowledgements have the property `Q`. -/
structure Closed (Q : Payload → Prop) : Prop where
  status : ∀ view, Q (.status view)
  ack : ∀ packetID view, Q (.ack packetID view)

theorem allPlain_nil (Q : Payload → Prop) : AllPlain Q [] := by
  intro p mem
  cases mem

theorem AllPlain.append {Q : Payload → Prop} {sent sent' : List Sent} (left : AllPlain Q sent)
    (right : AllPlain Q sent') : AllPlain Q (sent ++ sent') :=
  List.forall_mem_append.mpr ⟨left, right⟩

theorem allPlain_singleton {Q : Payload → Prop} {dest : GoString} {pkt : Packet}
    (plain : pkt.msg.Plain Q) : AllPlain Q [(dest, pkt)] := by
  intro p mem
  rw [List.mem_singleton.mp mem]
  exact plain

namespace Node

/-- All that the goroutines of the node may send again has the property `Q`. -/
def Waits (Q : Payload → Prop) (n : Node) : Prop := ∀ task ∈ n.tasks, task.Plain Q

section Plain

variable {Q : Payload → Prop} {n n' : Node}

theorem Waits.spawn (waits : n.Waits Q) {task : Task} (plain : task.Plain Q)
    (tasks : n'.tasks = n.tasks ++ [task]) : n'.Waits Q := by
  intro task' mem
  rw [tasks] at mem
  rcases List.mem_append.mp mem with before | new
  · exact waits task' before
  · rw [List.mem_singleton.mp new]
    exact plain

/-- A goroutine that waits for an acknowledgement may send its packet again. -/
theorem Waits.wait (waits : n.Waits Q) {pkt : Packet} {dest : GoString} {registered : Bool}
    (tasks : n'.tasks = n.tasks ++ [.waitForAck pkt dest registered]) (plain : pkt.msg.Plain Q) :
    n'.Waits Q :=
  have again : (Task.waitForAck pkt dest registered).Plain Q := plain
  waits.spawn again tasks

/-! ## Handlers -/

theorem SendsStatus.plain (closed : Closed Q) {sent : List Sent} (statuses : n.SendsStatus sent) :
    AllPlain Q sent := by
  intro p mem
  obtain ⟨c, packet⟩ := statuses p mem
  rw [packet]
  exact closed.status _

theorem handleStatusMessage_plain (closed : Closed Q) (n : Node) (c : StatusChoice)
    (header : Header) (view : StatusMessage) :
    AllPlain Q (n.handleStatusMessage c header view) := by
  obtain ⟨statuses, views, sent⟩ := n.handleStatusMessage_sends c header view
  rw [sent]
  refine (views.plain closed).append ?_
  rcases n.sendMissingRumors_sends c header.source (n.compareViews c view).2 with none | some
  · rw [none]
    exact allPlain_nil Q
  · rw [some]
    exact allPlain_singleton trivial

theorem deliverAck_tasks (n : Node) (ackedPacketID : GoString) :
    (n.deliverAck ackedPacketID).tasks = n.tasks := by
  unfold deliverAck
  split <;> rfl

theorem processPayload_plain (closed : Closed Q) (n : Node) {c : Nat → LayerChoice}
    (sends : ∀ depth, (c depth).Sends Q) (header : Header) (depth : Nat) (msg : Payload) :
    (n.processPayload c header depth msg).node.tasks = n.tasks ∧
      AllPlain Q (n.processPayload c header depth msg).sent := by
  induction msg generalizing depth with
  | status view =>
      rw [processPayload, notified_node, notified_sent]
      exact ⟨rfl, n.handleStatusMessage_plain closed _ header view⟩
  | ack ackedPacketID view =>
      rw [processPayload, notified_node, notified_sent, handleAckMessage]
      have tasks := n.deliverAck_tasks ackedPacketID
      split
      · exact ⟨tasks, allPlain_nil Q⟩
      · rw [notified_node, notified_sent]
        exact ⟨tasks, handleStatusMessage_plain closed _ _ header view⟩
  | privateMessage recipients msg ih =>
      rw [processPayload]
      split
      · rw [notified_node, notified_sent]
        exact ih (depth + 1)
      · rw [notified_node, notified_sent]
        exact ⟨rfl, allPlain_nil Q⟩
  | other type content =>
      rw [processPayload, notified_node, notified_sent]
      refine ⟨rfl, fun p mem => ?_⟩
      obtain ⟨send, inside, rfl⟩ := List.mem_map.mp mem
      exact sends depth send inside

theorem acceptRumor_tasks (n : Node) (header : Header) (rumor : Rumor) :
    (n.acceptRumor header rumor).tasks = n.tasks := by
  unfold acceptRumor
  dsimp only
  split
  · unfold setRoutingEntry
    split <;> rfl
  · rfl

theorem sendAckMessage_plain (closed : Closed Q) {c : SendChoice} {header : Header} {ack : Sent}
    (sent : n.sendAckMessage c header = .ok ack) : ack.2.msg.Plain Q := by
  unfold sendAckMessage at sent
  split at sent
  · cases sent
  · split at sent
    · cases sent
    · cases sent
      exact closed.ack _ _

theorem rumorLoop_plain (closed : Closed Q) (n : Node) {c : RumorChoice}
    (sends : ∀ i depth, (c.embedded i depth).Sends Q) (header : Header) (i : Nat)
    (rumors : List Rumor) :
    (rumorLoop c header i n rumors).1.node.tasks = n.tasks ∧
      AllPlain Q (rumorLoop c header i n rumors).1.sent := by
  induction rumors generalizing i n with
  | nil => exact ⟨rfl, allPlain_nil Q⟩
  | cons rumor rumors ih =>
      obtain ⟨tasks, plain⟩ := processPayload_plain closed
        { n with rumorDB := storeRumor n.rumorDB rumor } (sends i) header 0 rumor.msg
      unfold rumorLoop
      split
      · dsimp only
        split
        · exact ⟨tasks, plain⟩
        · have accepted := (acceptRumor_tasks
            (n.processRumorMessage (c.embedded i) header rumor).node header rumor).trans tasks
          split
          · exact ⟨accepted, plain⟩
          · next ack sent =>
            obtain ⟨later, rest⟩ := ih
              ((n.processRumorMessage (c.embedded i) header rumor).node.acceptRumor header rumor)
              (i + 1)
            exact ⟨later.trans accepted, plain.append
              ((allPlain_singleton (sendAckMessage_plain closed sent)).append rest)⟩
      · exact ih n (i + 1)

theorem transmit_rumors_plain {c : SendChoice} {dest : GoString} {rumors : List Rumor}
    {pkt : Packet} (sent : n.transmit c dest (.rumors rumors) = some pkt) : pkt.msg.Plain Q := by
  rw [transmit_msg sent]
  exact trivial

theorem forwardRumorsMessage_plain (waits : n.Waits Q) (c : RumorChoice) (header : Header)
    (rumors : List Rumor) :
    (n.forwardRumorsMessage c header rumors).1.Waits Q ∧
      AllPlain Q (n.forwardRumorsMessage c header rumors).2 := by
  unfold forwardRumorsMessage
  split
  · exact ⟨waits, allPlain_nil Q⟩
  · dsimp only
    split
    · exact ⟨waits, allPlain_nil Q⟩
    · next pkt sent =>
      have plain : pkt.msg.Plain Q := transmit_rumors_plain sent
      exact ⟨waits.wait rfl plain, allPlain_singleton plain⟩

theorem handleRumor_plain (closed : Closed Q) (waits : n.Waits Q) {c : RumorChoice}
    (sends : ∀ i depth, (c.embedded i depth).Sends Q) (header : Header) (rumors : List Rumor) :
    (n.handleRumor c header rumors).node.Waits Q ∧
      AllPlain Q (n.handleRumor c header rumors).sent := by
  obtain ⟨tasks, plain⟩ := n.rumorLoop_plain closed sends header 0 rumors
  have looped : (rumorLoop c header 0 n rumors).1.node.Waits Q := by
    unfold Waits
    rw [tasks]
    exact waits
  unfold handleRumor
  dsimp only
  split
  · obtain ⟨waits', forwarded⟩ := forwardRumorsMessage_plain looped c header rumors
    exact ⟨waits', plain.append forwarded⟩
  · exact ⟨looped, plain⟩

theorem handleIncomingPacket_plain (closed : Closed Q) (waits : n.Waits Q) {c : PacketChoice}
    (sends : c.Sends Q) {pkt : Packet} (arriving : pkt.msg.Plain Q) :
    (n.handleIncomingPacket c pkt).node.Waits Q ∧
      AllPlain Q (n.handleIncomingPacket c pkt).sent := by
  unfold handleIncomingPacket
  split
  · split
    · exact handleRumor_plain closed waits sends.2 pkt.header _
    · next msg decoded =>
      obtain ⟨tasks, plain⟩ := n.processPayload_plain closed sends.1 pkt.header 0 msg
      refine ⟨?_, plain⟩
      unfold Waits
      rw [tasks]
      exact waits
  · refine ⟨waits, ?_⟩
    unfold relayPacket
    dsimp only
    split
    · exact allPlain_singleton arriving
    · exact allPlain_nil Q

/-! ## Steps of a node -/

theorem runTask_plain (waits : n.Waits Q) (i : Nat) (neighbor : NeighborChoice) (c : SendChoice)
    (wakeup : Wakeup) :
    (n.runTask i neighbor c wakeup).1.Waits Q ∧ AllPlain Q (n.runTask i neighbor c wakeup).2 := by
  have rest : Waits Q { n with tasks := n.tasks.eraseIdx i } :=
    fun task mem => waits task (List.mem_of_mem_eraseIdx mem)
  unfold runTask
  dsimp only
  split
  · exact ⟨waits, allPlain_nil Q⟩
  · unfold broadCastRoutine
    dsimp only
    split
    · exact ⟨rest, allPlain_nil Q⟩
    · split
      · exact ⟨rest, allPlain_nil Q⟩
      · next pkt sent =>
        have plain : pkt.msg.Plain Q := transmit_rumors_plain sent
        exact ⟨rest.wait rfl plain, allPlain_singleton plain⟩
  · next pkt sentTo registered found =>
    have plain : pkt.msg.Plain Q := waits _ (List.mem_of_getElem? found)
    unfold waitForAck
    dsimp only
    split
    · split
      · exact ⟨rest, allPlain_nil Q⟩
      · exact ⟨rest.wait rfl plain, allPlain_nil Q⟩
    · split
      · split
        · exact ⟨rest, allPlain_nil Q⟩
        · exact ⟨rest.wait rfl plain, allPlain_nil Q⟩
      · exact ⟨rest.wait rfl plain, allPlain_nil Q⟩
    · split
      · exact ⟨rest, allPlain_nil Q⟩
      · exact ⟨rest.wait rfl plain, allPlain_singleton plain⟩
    · exact ⟨rest.wait rfl plain, allPlain_nil Q⟩

theorem addPeer_tasks (n : Node) (addrs : List GoString) : (n.addPeer addrs).tasks = n.tasks := by
  induction addrs generalizing n with
  | nil => rfl
  | cons a addrs ih =>
      unfold addPeer
      split
      · exact ih _
      · exact ih n

theorem step_plain (closed : Closed Q) (waits : n.Waits Q) {e : Event} (sends : e.Sends Q) :
    (n.step e).1.Waits Q ∧ AllPlain Q (n.step e).2 := by
  cases e with
  | addPeer addrs =>
      refine ⟨?_, allPlain_nil Q⟩
      unfold Waits
      rw [step, addPeer_tasks]
      exact waits
  | setRoutingEntry origin relayAddr =>
      refine ⟨?_, allPlain_nil Q⟩
      rw [step, setRoutingEntry]
      split <;> exact waits
  | broadcast msg =>
      have once : (Task.broadCastRoutine [⟨n.address, n.sequenceNumber + 1, msg⟩]).Plain Q :=
        trivial
      exact ⟨waits.spawn once rfl, allPlain_nil Q⟩
  | runTask i neighbor c wakeup => exact runTask_plain waits i neighbor c wakeup
  | antiEntropy c =>
      refine ⟨waits, ?_⟩
      rw [step, sendRandomStatusMessage]
      split
      · exact allPlain_nil Q
      · exact (n.sendStatusMessage_sends _ _).plain closed
  | sendPayload dest header msg => exact ⟨waits, allPlain_singleton sends⟩

end Plain

end Node

/-! ## The network -/

namespace Network

/-- Everything that travels outside rumors, or may travel again, has the property `Q`. -/
structure Plain (Q : Payload → Prop) (net : Network) : Prop where
  waits : ∀ address, (net.nodes address).Waits Q
  sent : AllPlain Q net.sent

/-- What the step makes other handlers and callers send has the property `Q`. -/
def Action.Sends (Q : Payload → Prop) : Action → Prop
  | .act _ e => e.Sends Q
  | .deliver _ c => c.Sends Q

theorem initial_plain (Q : Payload → Prop) (ackTimeout : GoString → Nat) :
    (initial ackTimeout).Plain Q := by
  refine ⟨fun address task mem => ?_, allPlain_nil Q⟩
  cases mem

theorem Plain.step {Q : Payload → Prop} {net : Network} (plain : net.Plain Q) (closed : Closed Q)
    {a : Action} (sends : Action.Sends Q a) : (net.step a).Plain Q := by
  cases a with
  | act address e =>
      obtain ⟨waits, sent⟩ := Node.step_plain closed (plain.waits address) sends
      refine ⟨?_, plain.sent.append sent⟩
      exact (Function.forall_update_iff net.nodes fun _ n => n.Waits Q).mpr
        ⟨waits, fun other _ => plain.waits other⟩
  | deliver i c =>
      cases found : net.sent[i]? with
      | none =>
          simp only [Network.step, found]
          exact plain
      | some arriving =>
          obtain ⟨address, pkt⟩ := arriving
          have arrives : pkt.msg.Plain Q := plain.sent _ (List.mem_of_getElem? found)
          obtain ⟨waits, sent⟩ :=
            Node.handleIncomingPacket_plain closed (plain.waits address) sends arrives
          simp only [Network.step, found]
          refine ⟨?_, plain.sent.append sent⟩
          exact (Function.forall_update_iff net.nodes fun _ n => n.Waits Q).mpr
            ⟨waits, fun other _ => plain.waits other⟩

/-! ## Broadcasts -/

section Broadcasts

variable {net : Network} {address o : GoString} {e : Event}

theorem mem_broadcasts_act {msg : Payload}
    (mem : msg ∈ (net.step (.act address e)).broadcasts o) :
    msg ∈ net.broadcasts o ∨ e = .broadcast msg := by
  cases e with
  | broadcast msg' =>
      by_cases actor : o = address
      · subst actor
        have extended : (net.step (.act o (.broadcast msg'))).broadcasts o =
            net.broadcasts o ++ [msg'] := Function.update_self ..
        rw [extended, List.mem_append, List.mem_singleton] at mem
        rcases mem with before | rfl
        · exact .inl before
        · exact .inr rfl
      · have same : (net.step (.act address (.broadcast msg'))).broadcasts o = net.broadcasts o :=
          Function.update_of_ne actor ..
        rw [same] at mem
        exact .inl mem
  | _ => exact .inl mem

/-- The broadcasts of a node are its own. -/
theorem broadcasts_act (foreign : ∀ msg, e = .broadcast msg → o ≠ address) :
    (net.step (.act address e)).broadcasts o = net.broadcasts o := by
  cases e with
  | broadcast msg => exact Function.update_of_ne (foreign msg rfl) ..
  | _ => rfl

end Broadcasts

end Network

end Peerster.Gossip
