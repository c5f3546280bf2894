import Peerster.Gossip.Exchange
import Peerster.Gossip.Nesting
import Peerster.Gossip.Network

/-!
# Reliable broadcast

What the nodes of a network do with each other's broadcasts.  Every rumor on its way is a broadcast
of its origin (`Network.Inv`), and a node processes the rumors of an origin in the order of their
numbers (`Delivered`); so at every time the messages of an origin that a node has processed are the
first messages the origin has broadcast, each once and in the order of the calls
(`Network.reachable_fifo`).
-/

namespace Peerster.Gossip

namespace Node

/-! ## What a node knows of one origin -/

section Entry

variable {n : Node}

theorem storedNumbers_eq_entry (n : Node) (origin : GoString) :
    n.storedNumbers origin = ((n.entry origin).stored.getD []).map Rumor.sequence := rfl

theorem entry_acceptRumor_of_ne (n : Node) (header : Header) {rumor : Rumor} {origin : GoString}
    (other : origin ≠ rumor.origin) :
    (n.acceptRumor header rumor).entry origin = n.entry origin := by
  unfold entry
  rw [receivedSeq_acceptRumor, FinMap.get_add_of_ne _ _ other, (acceptRumor_frame n header rumor).2]

/-- Rumors of an origin that are not beyond the view change nothing for it, whatever fails. -/
theorem rumorLoop_entry_of_seen (c : RumorChoice) (header : Header) (rumors : List Rumor) (i : Nat)
    {origin : GoString} (seen : ∀ r ∈ rumors, r.origin = origin → r.sequence ≤ n.lastSeq origin) :
    (rumorLoop c header i n rumors).1.node.entry origin = n.entry origin := by
  induction rumors generalizing i n with
  | nil => rfl
  | cons rumor rumors ih =>
      have rest : ∀ r ∈ rumors, r.origin = origin → r.sequence ≤ n.lastSeq origin :=
        fun r mem => seen r (List.mem_cons_of_mem rumor mem)
      unfold rumorLoop
      split
      · next next =>
        have other : origin ≠ rumor.origin := by
          rintro rfl
          have bound := seen rumor List.mem_cons_self rfl
          unfold lastSeq at bound
          omega
        have tried := n.entry_processRumorMessage (c.embedded i) header rumor origin
        rw [if_neg other] at tried
        have accepted := entry_acceptRumor_of_ne
          (n.processRumorMessage (c.embedded i) header rumor).node header other
        rw [tried] at accepted
        dsimp only
        split
        · exact tried
        · split
          · exact accepted
          · have same := congrArg (fun e => e.last.getD 0) accepted
            dsimp only
            rw [ih (i + 1) (fun r mem own => (rest r mem own).trans same.ge), accepted]
      · exact ih (i + 1) rest

theorem handleRumor_entry_of_seen (c : RumorChoice) (header : Header) {rumors : List Rumor}
    {origin : GoString} (seen : ∀ r ∈ rumors, r.origin = origin → r.sequence ≤ n.lastSeq origin) :
    (n.handleRumor c header rumors).node.entry origin = n.entry origin := by
  rw [handleRumor_node_entry, rumorLoop_entry_of_seen c header rumors 0 seen]

theorem processPayload_entry (n : Node) (c : Nat → LayerChoice) (header : Header) (depth : Nat)
    (msg : Payload) (origin : GoString) :
    (n.processPayload c header depth msg).node.entry origin = n.entry origin := by
  obtain ⟨-, receivedSeq, rumorDB⟩ := processPayload_frame n c header depth msg
  unfold entry
  rw [receivedSeq, rumorDB]

/-- A packet without rumors of an origin beyond the view changes nothing for it. -/
theorem handleIncomingPacket_entry_of_seen (c : PacketChoice) {pkt : Packet} {origin : GoString}
    (seen : ∀ r ∈ pkt.msg.carried, r.origin = origin → r.sequence ≤ n.lastSeq origin) :
    (n.handleIncomingPacket c pkt).node.entry origin = n.entry origin := by
  unfold handleIncomingPacket
  split
  · cases decoded : pkt.msg with
    | rumors rumors =>
        rw [decoded] at seen
        exact handleRumor_entry_of_seen c.rumor pkt.header seen
    | payload msg => exact n.processPayload_entry c.payload pkt.header 0 msg origin
  · rfl

/-- The view only grows over a message of rumors, wherever its handling stops. -/
theorem lastSeq_le_rumorLoop (c : RumorChoice) (header : Header) (rumors : List Rumor) (i : Nat)
    (origin : GoString) :
    n.lastSeq origin ≤ (rumorLoop c header i n rumors).1.node.lastSeq origin := by
  induction rumors generalizing i n with
  | nil => exact le_rfl
  | cons rumor rumors ih =>
      unfold rumorLoop
      split
      · next next =>
        have tried := n.lastSeq_processRumorMessage (c.embedded i) header rumor origin
        have accepted := lastSeq_le_accepted (c.embedded i) header next origin
        dsimp only
        split
        · exact tried.ge
        · split
          · exact accepted
          · exact accepted.trans (ih (i + 1))
      · exact ih (i + 1)

theorem addPeer_entry (n : Node) (addrs : List GoString) (origin : GoString) :
    (n.addPeer addrs).entry origin = n.entry origin := by
  induction addrs generalizing n with
  | nil => rfl
  | cons a addrs ih =>
      unfold addPeer
      split
      · exact ih _
      · exact ih n

theorem runTask_entry (n : Node) (i : Nat) (neighbor : NeighborChoice) (c : SendChoice)
    (wakeup : Wakeup) (origin : GoString) :
    (n.runTask i neighbor c wakeup).1.entry origin = n.entry origin := by
  unfold runTask
  dsimp only
  split
  · rfl
  · unfold broadCastRoutine
    dsimp only
    split
    · rfl
    · split <;> rfl
  · unfold waitForAck
    dsimp only
    split
    · split <;> rfl
    · split
      · split <;> rfl
      · rfl
    · split <;> rfl
    · rfl

/-- Nothing but a broadcast changes what a node knows by itself. -/
theorem step_entry {e : Event} (quiet : ∀ msg, e ≠ .broadcast msg) (origin : GoString) :
    (n.step e).1.entry origin = n.entry origin := by
  cases e with
  | addPeer addrs => exact n.addPeer_entry addrs origin
  | setRoutingEntry o relayAddr =>
      simp only [step, setRoutingEntry]
      split <;> rfl
  | broadcast msg => exact (quiet msg rfl).elim
  | runTask i neighbor c wakeup => exact n.runTask_entry i neighbor c wakeup origin
  | antiEntropy c => rfl
  | sendPayload dest header msg => rfl

theorem broadcast_entry_of_ne (n : Node) (msg : Payload) {origin : GoString}
    (foreign : origin ≠ n.address) : (n.broadcast msg).entry origin = n.entry origin := by
  unfold entry broadcast
  dsimp only
  rw [FinMap.get_add_of_ne _ _ foreign, get_storeRumor_of_ne foreign]

end Entry

/-! ## The node's own rumors -/

/-- The view of the node's own rumors and those stored are up to its counter. -/
structure OwnKept (n : Node) : Prop where
  seen : n.lastSeq n.address = n.sequenceNumber
  stored : n.storedNumbers n.address = List.range' 1 n.sequenceNumber

theorem OwnKept.of_entry {n n' : Node} (own : n.OwnKept) (address : n'.address = n.address)
    (sequenceNumber : n'.sequenceNumber = n.sequenceNumber)
    (entry : n'.entry n.address = n.entry n.address) : n'.OwnKept := by
  have seen := own.seen
  have stored := own.stored
  rw [lastSeq_eq_entry] at seen
  rw [storedNumbers_eq_entry] at stored
  refine ⟨?_, ?_⟩
  · rw [lastSeq_eq_entry, address, entry, sequenceNumber, seen]
  · rw [storedNumbers_eq_entry, address, entry, sequenceNumber, stored]

theorem OwnKept.broadcast {n : Node} (own : n.OwnKept) (msg : Payload) :
    (n.broadcast msg).OwnKept := by
  have seen : (n.broadcast msg).lastSeq n.address = n.sequenceNumber + 1 := by
    rw [lastSeq_broadcast, if_pos rfl]
  have next : (⟨n.address, n.sequenceNumber + 1, msg⟩ : Rumor).sequence = n.sequenceNumber + 1 :=
    rfl
  have stored : (n.broadcast msg).storedNumbers n.address = List.range' 1 (n.sequenceNumber + 1) :=
    numbers_storeRumor next own.stored le_rfl (Nat.le_succ _)
  exact ⟨seen, stored⟩

/-- What is executed on a packet and belongs to a rumor belongs to one that the packet carries, and
that was beyond the view. -/
theorem mem_executedOn {n : Node} {c : PacketChoice} {pkt : Packet} {e : Execution} {i : Nat}
    {rumor : Rumor} (mem : e ∈ n.executedOn (.packet c pkt)) (of : e.rumor = some (i, rumor)) :
    rumor ∈ pkt.msg.carried ∧ n.lastSeq rumor.origin < rumor.sequence := by
  unfold executedOn handleIncomingPacket at mem
  dsimp only at mem
  split at mem
  · split at mem
    · next decoded =>
      rw [handleRumor_executed] at mem
      obtain ⟨j, r, inside, n', next, grows, tried⟩ := mem_executed_rumorLoop mem
      cases of.symm.trans (mem_executed_processRumorMessage tried).1
      rw [decoded]
      exact ⟨inside, (grows rumor.origin).trans_lt (next ▸ Nat.lt_succ_self _)⟩
    · rw [rumor_processPayload mem] at of
      cases of
  · cases mem

/-- A rumor that is processed on a packet is one that it carries, and was beyond the view. -/
theorem mem_processedRumors {n : Node} {c : PacketChoice} {pkt : Packet} {r : Rumor}
    (mem : r ∈ processedRumors (n.executedOn (.packet c pkt))) :
    r ∈ pkt.msg.carried ∧ n.lastSeq r.origin < r.sequence := by
  obtain ⟨e, executed, processed⟩ := List.mem_filterMap.mp mem
  have own := n.executedOn_ofRumor (.packet c pkt) e executed
  unfold Execution.processed at processed
  split at processed
  · cases processed
  · next i rumor of =>
    split at processed
    · next fine =>
      rw [own i rumor of fine.1] at processed
      cases processed
      exact mem_executedOn executed of
    · cases processed

end Node

/-! ## The network -/

namespace Network

/-- The rumors of an origin, as it has broadcast them. -/
def rumorsFrom (net : Network) (origin : GoString) : List Rumor :=
  (net.broadcasts origin).mapIdx fun i msg => ⟨origin, i + 1, msg⟩

/-- The messages that the node at `address` executes in a step. -/
def executedAt (address : GoString) (net : Network) : Action → List Execution
  | .act _ _ => []
  | .deliver i c =>
      match net.sent[i]? with
      | none => []
      | some (arriving, pkt) =>
          if arriving = address then (net.nodes address).executedOn (.packet c pkt) else []

/-- Authentic rumors of one origin with the numbers from 1 on are what it has broadcast first. -/
theorem eq_take_rumorsFrom {net : Network} {origin : GoString} {rumors : List Rumor} {k : Nat}
    (numbers : rumors.map Rumor.sequence = List.range' 1 k)
    (authentic : ∀ r ∈ rumors, r.origin = origin ∧ Authentic net.broadcasts r) :
    rumors = (net.rumorsFrom origin).take k := by
  have length : rumors.length = k := by
    rw [← List.length_map (f := Rumor.sequence), numbers, List.length_range']
  refine List.ext_getElem? fun i => ?_
  rcases Nat.lt_or_ge i k with inside | outside
  · obtain ⟨r, here⟩ : ∃ r, rumors[i]? = some r := ⟨_, List.getElem?_eq_getElem (length ▸ inside)⟩
    obtain ⟨own, -, sent⟩ := authentic r (List.mem_of_getElem? here)
    have number : r.sequence = i + 1 := by
      have mapped := congrArg (·[i]?) numbers
      simp only [List.getElem?_map, here, Option.map_some, List.getElem?_range' inside] at mapped
      have := Option.some.inj mapped
      omega
    subst own
    rw [number, Nat.add_sub_cancel] at sent
    rw [here, List.getElem?_take_of_lt inside, rumorsFrom, List.getElem?_mapIdx, sent,
      Option.map_some, ← number]
  · rw [List.getElem?_eq_none (length ▸ outside), List.getElem?_take_eq_none outside]

/-- What the node at `address` has processed so far, and what it knows, in a network in which only
broadcasts are on their way. -/
structure Reliable (address : GoString) (log : List Rumor) (net : Network) : Prop where
  inv : net.Inv
  delivered : Node.Delivered address log (net.nodes address)
  authentic : ∀ r ∈ log, Authentic net.broadcasts r
  foreign : ∀ r ∈ log, r.origin ≠ address
  own : (net.nodes address).OwnKept

theorem prefix_logged (broadcasts : GoString → List Payload) (address : GoString) (e : Event)
    (origin : GoString) : broadcasts origin <+: logged broadcasts address e origin := by
  cases e with
  | broadcast msg => exact prefix_update broadcasts address msg origin
  | _ => exact List.prefix_refl _

theorem nodes_deliver {net : Network} {i : Nat} {address : GoString} {pkt : Packet}
    (found : net.sent[i]? = some (address, pkt)) (c : PacketChoice) :
    (net.step (.deliver i c)).nodes address =
      ((net.nodes address).handleIncomingPacket c pkt).node := by
  simp only [step, found, Function.update_self]

section Reliable

variable {net : Network} {address : GoString} {log : List Rumor}

/-- A step of another node. -/
theorem Reliable.elsewhere {net' : Network} (reliable : Reliable address log net) (inv : net'.Inv)
    (same : net'.nodes address = net.nodes address)
    (grows : ∀ origin, net.broadcasts origin <+: net'.broadcasts origin) :
    Reliable address log net' :=
  ⟨inv, same ▸ reliable.delivered, fun r mem => (reliable.authentic r mem).mono grows,
    reliable.foreign, same ▸ reliable.own⟩

/-- A step of the node itself. -/
theorem Reliable.act (reliable : Reliable address log net) (e : Event) :
    Reliable address log (net.step (.act address e)) := by
  have here : (net.step (.act address e)).nodes address = ((net.nodes address).step e).1 :=
    Function.update_self ..
  refine ⟨reliable.inv.step _, ?_, fun r mem => ?_, reliable.foreign, ?_⟩
  · have reacted := reliable.delivered.react (.own e)
    rw [Node.executedOn, processedRumors_nil, List.append_nil] at reacted
    rw [here]
    exact reacted
  · exact (reliable.authentic r mem).mono (prefix_logged net.broadcasts address e)
  · rw [here]
    by_cases broadcasts : ∃ msg, e = .broadcast msg
    · obtain ⟨msg, rfl⟩ := broadcasts
      exact reliable.own.broadcast msg
    · have quiet : ∀ msg, e ≠ .broadcast msg := fun msg same => broadcasts ⟨msg, same⟩
      have keeps := Node.step_keeps (reliable.inv.nodes address) quiet
      exact reliable.own.of_entry keeps.address keeps.sequenceNumber (Node.step_entry quiet _)

/-- The rumors of a packet are authentic, so none of the node's own is beyond its view. -/
theorem Reliable.packet (reliable : Reliable address log net) {i : Nat} {pkt : Packet}
    (found : net.sent[i]? = some (address, pkt)) (c : PacketChoice) :
    Reliable address (log ++ processedRumors ((net.nodes address).executedOn (.packet c pkt)))
      (net.step (.deliver i c)) := by
  have carried := reliable.inv.sent _ (List.mem_of_getElem? found)
  have here := nodes_deliver found c
  have same : (net.step (.deliver i c)).broadcasts = net.broadcasts := by
    simp only [step, found]
  have self := reliable.inv.address address
  have seen : ∀ r ∈ pkt.msg.carried, r.origin = (net.nodes address).address →
      r.sequence ≤ (net.nodes address).lastSeq (net.nodes address).address := by
    intro r mem own
    rw [reliable.own.seen, reliable.inv.sequenceNumber, ← self, ← own]
    exact (carried r mem).le_reached
  refine ⟨reliable.inv.step _, ?_, fun r mem => ?_, fun r mem => ?_, ?_⟩
  · rw [here]
    exact reliable.delivered.react (.packet c pkt)
  · rw [same]
    rcases List.mem_append.mp mem with before | now
    · exact reliable.authentic r before
    · exact carried r (Node.mem_processedRumors now).1
  · rcases List.mem_append.mp mem with before | now
    · exact reliable.foreign r before
    · intro own
      rw [← self] at own
      obtain ⟨inside, beyond⟩ := Node.mem_processedRumors now
      have bound := seen r inside own
      rw [own] at beyond
      omega
  · have keeps := Node.handleIncomingPacket_keeps (fun _ authentic => authentic.le_reached)
      (reliable.inv.nodes address) c carried
    rw [here]
    exact reliable.own.of_entry keeps.address keeps.sequenceNumber
      (Node.handleIncomingPacket_entry_of_seen c seen)

/-- Every step of the network keeps the relation, with what the node processes added to the log. -/
theorem Reliable.step (reliable : Reliable address log net) (a : Action) :
    Reliable address (log ++ processedRumors (executedAt address net a)) (net.step a) := by
  cases a with
  | act actor e =>
      rw [executedAt, processedRumors_nil, List.append_nil]
      by_cases same : actor = address
      · subst same
        exact reliable.act e
      · exact reliable.elsewhere (reliable.inv.step _) (Function.update_of_ne (Ne.symm same) ..)
          (prefix_logged net.broadcasts actor e)
  | deliver i c =>
      cases found : net.sent[i]? with
      | none =>
          simp only [executedAt, Network.step, found, processedRumors_nil, List.append_nil]
          exact reliable
      | some arriving =>
          obtain ⟨actor, pkt⟩ := arriving
          by_cases same : actor = address
          · subst same
            simp only [executedAt, found, if_true]
            exact reliable.packet found c
          · have unchanged : (net.step (.deliver i c)).nodes address = net.nodes address := by
              simp only [Network.step, found]
              exact Function.update_of_ne (Ne.symm same) ..
            have broadcasts : (net.step (.deliver i c)).broadcasts = net.broadcasts := by
              simp only [Network.step, found]
            simp only [executedAt, found, if_neg same, processedRumors_nil, List.append_nil]
            exact reliable.elsewhere (reliable.inv.step _) unchanged
              fun origin => broadcasts ▸ List.prefix_refl _

/-- The rumors of an origin in the database of the node are what the origin has broadcast first, as
far as the view goes or one further. -/
theorem Reliable.rumorsOf (reliable : Reliable address log net) (origin : GoString) :
    ∃ k, (net.nodes address).rumorsOf origin = (net.rumorsFrom origin).take k ∧
      (net.nodes address).storedNumbers origin = List.range' 1 k ∧
      (net.nodes address).lastSeq origin ≤ k := by
  have held : ∀ r ∈ (net.nodes address).rumorsOf origin,
      r.origin = origin ∧ Authentic net.broadcasts r := by
    intro r mem
    unfold Node.rumorsOf at mem
    cases found : (net.nodes address).rumorDB.get origin with
    | none =>
        rw [found] at mem
        cases mem
    | some rumors =>
        rw [found] at mem
        exact (reliable.inv.nodes address).rumorDB origin rumors found r mem
  by_cases own : origin = address
  · have self := reliable.inv.address address
    have stored := reliable.own.stored
    have seen := reliable.own.seen
    rw [self] at stored seen
    subst own
    exact ⟨_, eq_take_rumorsFrom stored held, stored, seen.le⟩
  · obtain ⟨k, stored, reaches, -⟩ := reliable.delivered.stored origin own
    exact ⟨k, eq_take_rumorsFrom stored held, stored, reaches⟩

/-- The rumors of another node processed so far are what it has broadcast first. -/
theorem Reliable.processed (reliable : Reliable address log net) {origin : GoString}
    (foreign : origin ≠ address) :
    (log.filter fun r => r.origin = origin) =
      (net.rumorsFrom origin).take ((net.nodes address).lastSeq origin) := by
  refine eq_take_rumorsFrom (reliable.delivered.processed origin foreign) fun r mem => ?_
  obtain ⟨processed, own⟩ := List.mem_filter.mp mem
  exact ⟨of_decide_eq_true own, reliable.authentic r processed⟩

/-- The view of a node goes no further than the broadcasts. -/
theorem Reliable.lastSeq_le (reliable : Reliable address log net) (origin : GoString) :
    (net.nodes address).lastSeq origin ≤ (net.rumorsFrom origin).length := by
  rw [rumorsFrom, List.length_mapIdx]
  unfold Node.lastSeq
  cases found : (net.nodes address).receivedSeq.get origin with
  | none => exact Nat.zero_le _
  | some s => exact (reliable.inv.nodes address).receivedSeq origin s found

/-- A node in such a network holds the rumors of its view. -/
theorem Reliable.complete (reliable : Reliable address log net) : (net.nodes address).Complete where
  held origin rumors found r mem :=
    ⟨((reliable.inv.nodes address).rumorDB origin rumors found r mem).1, trivial⟩
  stored origin := by
    obtain ⟨k, -, stored, reaches⟩ := reliable.rumorsOf origin
    exact ⟨k, stored, reaches⟩

end Reliable

end Network

end Peerster.Gossip
