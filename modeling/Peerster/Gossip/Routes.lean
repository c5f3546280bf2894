import Peerster.Gossip.Delivery
import Peerster.Gossip.Network
import Peerster.Lib.PointerWalk

/-!
# Learned routes

A node that accepts a rumor of an origin routes packets for that origin through the node the rumor
came from.  The route to an origin leads to a node that knows more rumors of it, or as many for a
longer time, as long as every node passes on only rumors that it has itself accepted: then following
routes never comes back (`Network.reachable_loopFree`).

`forwardRumorsMessage` sends on a whole batch, also the rumors of it that the node has skipped
because an earlier one is missing.  A node that accepts such a rumor routes through a node that
knows less than itself, and routes may form a loop (`Network.looping_routes`).
-/

namespace Peerster.Gossip

namespace Node

/-! ## What a node covers -/

/-- The rumor is one of the node's own, or its number is within the node's view. -/
def Covers (n : Node) (r : Rumor) : Prop :=
  r.origin = n.address ∨ r.sequence ≤ n.lastSeq r.origin

/-- Every packet with rumors is the node's own, goes to its destination at once, and carries rumors
that the node covers. -/
def Passes (n : Node) (sent : List Sent) : Prop :=
  ∀ p ∈ sent, ∀ r ∈ p.2.msg.carried,
    p.2.header.destination = p.1 ∧ p.2.header.relayedBy = n.address ∧ n.Covers r

/-- Every rumor of the database is under its own origin, the route to a direct peer is the peer
itself, and every rumor a goroutine will send is covered. -/
structure Routed (n : Node) : Prop where
  held : Holds (fun _ => True) n.rumorDB
  direct : ∀ d, d ≠ n.address → n.directPeers.get d ≠ none → n.routingTable.get d = some d
  tasks : ∀ task ∈ n.tasks, ∀ r ∈ task.carried, n.Covers r

/-- The view of an origin has grown up to one of the rumors, and the route to it is through
`via`. -/
def LearnsRoute (via : GoString) (rumors : List Rumor) (n n' : Node) (d : GoString) : Prop :=
  n.lastSeq d < n'.lastSeq d ∧ (∃ r ∈ rumors, r.origin = d ∧ r.sequence = n'.lastSeq d) ∧
    ∀ next, n'.routingTable.get d = some next → next = via

/-- A call from `n` to `n'` that handles `rumors` relayed by `via` and sends `sent`: views of other
origins only grow, and the route to a node that is no direct peer changes only with the view. -/
structure Learns (via : GoString) (rumors : List Rumor) (n n' : Node) (sent : List Sent) :
    Prop where
  routed : n'.Routed
  address : n'.address = n.address
  grows : ∀ d, d ≠ n.address → n.lastSeq d ≤ n'.lastSeq d
  learned : ∀ d, d ≠ n.address → n'.directPeers.get d = none → n.directPeers.get d = none ∧
    (n'.lastSeq d = n.lastSeq d ∧ n'.routingTable.get d = n.routingTable.get d ∨
      LearnsRoute via rumors n n' d)
  passes : n'.Passes sent

section Learns

variable {via : GoString} {rumors : List Rumor} {n n' n'' : Node} {sent sent' : List Sent}

theorem passes_nil (n : Node) : n.Passes [] := by
  intro p mem
  cases mem

theorem Passes.append (first : n.Passes sent) (second : n.Passes sent') :
    n.Passes (sent ++ sent') := by
  intro p mem
  rcases List.mem_append.mp mem with mem | mem
  · exact first p mem
  · exact second p mem

theorem Covers.mono {r : Rumor} (covers : n.Covers r) (address : n'.address = n.address)
    (grows : ∀ d, d ≠ n.address → n.lastSeq d ≤ n'.lastSeq d) : n'.Covers r := by
  by_cases own : r.origin = n.address
  · exact .inl (own.trans address.symm)
  · rcases covers with own' | seen
    · exact (own own').elim
    · exact .inr (seen.trans (grows r.origin own))

theorem Passes.mono (passes : n.Passes sent) (address : n'.address = n.address)
    (grows : ∀ d, d ≠ n.address → n.lastSeq d ≤ n'.lastSeq d) : n'.Passes sent := by
  intro p mem r carried
  obtain ⟨destination, relayedBy, covers⟩ := passes p mem r carried
  exact ⟨destination, relayedBy.trans address.symm, covers.mono address grows⟩

/-- A call that touches neither views nor routes nor the database, and adds at most goroutines that
carry covered rumors. -/
theorem Routed.learns (routed : n.Routed) (address : n'.address = n.address)
    (rumorDB : n'.rumorDB = n.rumorDB) (receivedSeq : n'.receivedSeq = n.receivedSeq)
    (directPeers : n'.directPeers = n.directPeers)
    (routingTable : n'.routingTable = n.routingTable)
    (tasks : ∀ task ∈ n'.tasks, ∀ r ∈ task.carried, n.Covers r) (passes : n.Passes sent) :
    Learns via rumors n n' sent := by
  have seq : ∀ d, n'.lastSeq d = n.lastSeq d := by
    intro d
    unfold lastSeq
    rw [receivedSeq]
  have grows : ∀ d, d ≠ n.address → n.lastSeq d ≤ n'.lastSeq d := fun d _ => (seq d).ge
  refine ⟨⟨rumorDB ▸ routed.held, fun d foreign => ?_, fun task mem r carried => ?_⟩, address,
    grows, fun d foreign indirect => ?_, passes.mono address grows⟩
  · rw [address] at foreign
    rw [directPeers, routingTable]
    exact routed.direct d foreign
  · exact (tasks task mem r carried).mono address grows
  · rw [directPeers] at indirect
    exact ⟨indirect, .inl ⟨seq d, by rw [routingTable]⟩⟩

theorem Routed.stays (routed : n.Routed) (passes : n.Passes sent) : Learns via rumors n n sent :=
  routed.learns rfl rfl rfl rfl rfl routed.tasks passes

theorem Learns.trans (first : Learns via rumors n n' sent)
    (second : Learns via rumors n' n'' sent') : Learns via rumors n n'' (sent ++ sent') := by
  have grows : ∀ d, d ≠ n'.address → n'.lastSeq d ≤ n''.lastSeq d := second.grows
  refine ⟨second.routed, second.address.trans first.address, fun d foreign => ?_,
    fun d foreign indirect => ?_, (first.passes.mono second.address grows).append second.passes⟩
  · exact (first.grows d foreign).trans (grows d (first.address ▸ foreign))
  · obtain ⟨indirect', later⟩ := second.learned d (first.address ▸ foreign) indirect
    obtain ⟨indirect'', earlier⟩ := first.learned d foreign indirect'
    refine ⟨indirect'', ?_⟩
    rcases later with ⟨seq, route⟩ | ⟨lt, news, routes⟩
    · rcases earlier with ⟨seq', route'⟩ | ⟨lt, news, routes⟩
      · exact .inl ⟨seq.trans seq', route.trans route'⟩
      · exact .inr ⟨seq ▸ lt, seq ▸ news, route ▸ routes⟩
    · exact .inr ⟨(first.grows d foreign).trans_lt lt, news, routes⟩

theorem Learns.subset {rumors' : List Rumor} (learns : Learns via rumors n n' sent)
    (subset : ∀ r ∈ rumors, r ∈ rumors') : Learns via rumors' n n' sent := by
  refine ⟨learns.routed, learns.address, learns.grows, fun d foreign indirect => ?_, learns.passes⟩
  obtain ⟨indirect', learned⟩ := learns.learned d foreign indirect
  refine ⟨indirect', ?_⟩
  rcases learned with same | ⟨lt, ⟨r, mem, number⟩, routes⟩
  · exact .inl same
  · exact .inr ⟨lt, ⟨r, subset r mem, number⟩, routes⟩

/-! ## Statuses -/

theorem le_of_mem_rumorsBetween {startSeq endSeq : Nat} {rumors : List Rumor} {r : Rumor}
    (mem : r ∈ rumorsBetween startSeq endSeq rumors) : r.sequence ≤ endSeq := by
  induction rumors with
  | nil => cases mem
  | cons rumor rumors ih =>
      unfold rumorsBetween at mem
      split at mem
      · exact ih mem
      · split at mem
        · cases mem
        · rcases List.mem_cons.mp mem with rfl | later
          · omega
          · exact ih later

/-- Missing rumors are within the node's view. -/
theorem Routed.missingRumors (routed : n.Routed) {view : StatusMessage} {origin : GoString}
    {r : Rumor} (mem : r ∈ n.missingRumors view origin) : n.Covers r := by
  unfold Node.missingRumors getMissingRumors at mem
  split at mem
  · cases mem
  · next rumors found =>
    have here := (routed.held origin rumors found r (mem_of_mem_rumorsBetween mem)).1
    right
    rw [here]
    exact le_of_mem_rumorsBetween mem

/-- A packet of the node's own with covered rumors. -/
theorem passes_packet {c : SendChoice} {dest : GoString} {msg : Message}
    (covered : ∀ r ∈ msg.carried, n.Covers r) : n.Passes [(dest, n.packet c dest msg)] := by
  intro p mem r carried
  rw [List.mem_singleton.mp mem] at carried ⊢
  exact ⟨rfl, rfl, covered r carried⟩

theorem SendsStatus.passes (statuses : n.SendsStatus sent) : n.Passes sent := by
  intro p mem r carried
  obtain ⟨c, packet⟩ := statuses p mem
  rw [packet] at carried
  cases carried

theorem Routed.handleStatusMessage (routed : n.Routed) (c : StatusChoice) (header : Header)
    (view : StatusMessage) : n.Passes (n.handleStatusMessage c header view) := by
  obtain ⟨statuses, views, sent⟩ := n.handleStatusMessage_sends c header view
  have carries := handleStatusMessage_carries (n := n) c header view
    fun origin r mem => routed.missingRumors mem
  rw [sent] at carries ⊢
  apply views.passes.append
  rcases n.sendMissingRumors_sends c header.source (n.compareViews c view).2 with none | some
  · rw [none]
    exact passes_nil n
  · rw [some] at carries ⊢
    apply passes_packet
    exact carries _ (List.mem_append_right _ List.mem_cons_self)

/-! ## Messages without rumors -/

/-- A message that carries no rumors changes at most the channels of acknowledgements. -/
theorem Routed.processPayload (routed : n.Routed) (c : Nat → LayerChoice) (header : Header)
    (depth : Nat) (msg : Payload) :
    Learns via rumors n (n.processPayload c header depth msg).node
      (n.processPayload c header depth msg).sent := by
  induction msg generalizing depth with
  | status view =>
      unfold Node.processPayload
      rw [notified_node, notified_sent]
      exact routed.stays (routed.handleStatusMessage _ _ _)
  | ack ackedPacketID view =>
      unfold Node.processPayload
      rw [notified_node, notified_sent]
      unfold handleAckMessage
      dsimp only
      have acked : Learns via rumors n (n.deliverAck ackedPacketID) [] := by
        unfold deliverAck
        split
        · exact routed.stays (passes_nil n)
        · exact routed.learns rfl rfl rfl rfl rfl routed.tasks (passes_nil n)
      split
      · exact acked
      · rw [notified_node, notified_sent]
        exact acked.trans (acked.routed.stays (acked.routed.handleStatusMessage _ _ _))
  | privateMessage recipients msg ih =>
      unfold Node.processPayload
      split
      · rw [notified_node, notified_sent]
        exact ih (depth + 1)
      · rw [notified_node, notified_sent]
        exact routed.stays (passes_nil n)
  | other type content =>
      unfold Node.processPayload
      rw [notified_node, notified_sent]
      refine routed.stays fun p mem r carried => ?_
      obtain ⟨send, -, rfl⟩ := List.mem_map.mp mem
      cases carried

/-! ## Rumors -/

theorem Routed.store (routed : n.Routed) (rumor : Rumor) :
    Learns via rumors n { n with rumorDB := storeRumor n.rumorDB rumor } [] where
  routed := ⟨routed.held.storeRumor trivial, routed.direct, routed.tasks⟩
  address := rfl
  grows _ _ := le_rfl
  learned _ _ indirect := ⟨indirect, .inl ⟨rfl, rfl⟩⟩
  passes := passes_nil _

theorem Routed.processRumorMessage (routed : n.Routed) (c : Nat → LayerChoice) (header : Header)
    (rumor : Rumor) :
    Learns via rumors n (n.processRumorMessage c header rumor).node
      (n.processRumorMessage c header rumor).sent := by
  have stored : Learns via rumors n { n with rumorDB := storeRumor n.rumorDB rumor } [] :=
    routed.store rumor
  exact stored.trans (stored.routed.processPayload c header 0 rumor.msg)

theorem acceptRumor_directPeers (n : Node) (header : Header) (rumor : Rumor) :
    (n.acceptRumor header rumor).directPeers = n.directPeers ∧
      (n.acceptRumor header rumor).tasks = n.tasks := by
  unfold acceptRumor
  dsimp only
  split
  · unfold setRoutingEntry
    split <;> exact ⟨rfl, rfl⟩
  · exact ⟨rfl, rfl⟩

/-- The route to the origin of an accepted rumor, when it is neither a direct peer nor the node
itself, is through the node that relayed the packet; other routes stay. -/
theorem acceptRumor_routingTable (n : Node) (header : Header) (rumor : Rumor) (d : GoString) :
    (n.acceptRumor header rumor).routingTable.get d =
      if d = rumor.origin ∧ n.directPeers.get d = none ∧ d ≠ n.address then
        if header.relayedBy = [] then none else some header.relayedBy
      else n.routingTable.get d := by
  unfold acceptRumor
  dsimp only
  by_cases same : d = rumor.origin
  · subst same
    by_cases learns : n.directPeers.get rumor.origin = none ∧ rumor.origin ≠ n.address
    · rw [if_pos learns, if_pos ⟨rfl, learns⟩]
      unfold setRoutingEntry
      split
      · simp [FinMap.get_remove]
      · simp
    · rw [if_neg learns, if_neg fun both => learns both.2]
  · rw [if_neg (c := d = rumor.origin ∧ _) fun both => same both.1]
    split
    · unfold setRoutingEntry
      split
      · exact FinMap.get_remove_of_ne _ same
      · exact FinMap.get_add_of_ne _ _ same
    · rfl

/-- The next rumor of an origin, accepted: the view grows up to it. -/
theorem Routed.acceptRumor (routed : n.Routed) (header : Header) {rumor : Rumor}
    (mem : rumor ∈ rumors) (next : rumor.sequence = n.lastSeq rumor.origin + 1) :
    Learns header.relayedBy rumors n (n.acceptRumor header rumor) [] := by
  obtain ⟨address, rumorDB⟩ := acceptRumor_frame n header rumor
  obtain ⟨directPeers, tasks⟩ := acceptRumor_directPeers n header rumor
  have seq := lastSeq_acceptRumor n header rumor
  have routes := acceptRumor_routingTable n header rumor
  have grows : ∀ d, d ≠ n.address → n.lastSeq d ≤ (n.acceptRumor header rumor).lastSeq d := by
    intro d _
    rw [seq]
    split
    · next same =>
      rw [same]
      omega
    · exact le_rfl
  refine ⟨⟨rumorDB ▸ routed.held, fun d foreign direct => ?_, fun task mem r carried => ?_⟩,
    address, grows, fun d foreign indirect => ?_, passes_nil _⟩
  · rw [directPeers] at direct
    rw [routes, if_neg fun learns => direct learns.2.1]
    exact routed.direct d (address ▸ foreign) direct
  · rw [tasks] at mem
    exact (routed.tasks task mem r carried).mono address grows
  · rw [directPeers] at indirect
    refine ⟨indirect, ?_⟩
    unfold LearnsRoute
    rw [routes, seq]
    by_cases same : d = rumor.origin
    · right
      subst same
      rw [if_pos rfl, if_pos ⟨rfl, indirect, foreign⟩]
      refine ⟨by omega, ⟨rumor, mem, rfl, rfl⟩, fun hop found => ?_⟩
      split at found
      · cases found
      · exact (Option.some.inj found).symm
    · left
      rw [if_neg same, if_neg fun learns => same learns.1]
      exact ⟨rfl, rfl⟩

theorem sendAckMessage_passes {c : SendChoice} {header : Header} {ack : Sent}
    (sent : n.sendAckMessage c header = .ok ack) : n.Passes [ack] := by
  unfold sendAckMessage at sent
  split at sent
  · cases sent
  · split at sent
    · cases sent
    · cases sent
      apply passes_packet
      intro r mem
      cases mem

/-- The loop learns from the rumors it accepts. -/
theorem Routed.rumorLoop (c : RumorChoice) (header : Header) (rumors : List Rumor) (i : Nat)
    (routed : n.Routed) :
    Learns header.relayedBy rumors n (Node.rumorLoop c header i n rumors).1.node
      (Node.rumorLoop c header i n rumors).1.sent := by
  induction rumors generalizing i n with
  | nil => exact routed.stays (passes_nil n)
  | cons rumor rumors ih =>
      unfold Node.rumorLoop
      split
      · next expected =>
        have processed : Learns header.relayedBy (rumor :: rumors) n _ _ :=
          routed.processRumorMessage (c.embedded i) header rumor
        have next : rumor.sequence =
            (n.processRumorMessage (c.embedded i) header rumor).node.lastSeq rumor.origin + 1 := by
          unfold lastSeq Node.processRumorMessage
          dsimp only
          rw [(processPayload_frame _ _ _ _ _).2.1]
          exact expected
        dsimp only
        split
        · exact processed
        · have accepted := processed.trans
            (processed.routed.acceptRumor header List.mem_cons_self next)
          rw [List.append_nil] at accepted
          split
          · exact accepted
          · next ack sent =>
            have later : Learns header.relayedBy (rumor :: rumors) _ _ _ :=
              (ih (i + 1) accepted.routed).subset fun r mem => List.mem_cons_of_mem rumor mem
            have acked := accepted.trans (accepted.routed.stays (sendAckMessage_passes sent))
            have all := acked.trans later
            rw [List.append_assoc] at all
            exact all
      · exact (ih (i + 1) routed).subset fun r mem => List.mem_cons_of_mem rumor mem

/-- Handling rumors learns from them, provided what is forwarded is covered in the end. -/
theorem Routed.handleRumor (routed : n.Routed) (c : RumorChoice) (header : Header)
    (rumors : List Rumor)
    (covered : ∀ p ∈ (n.handleRumor c header rumors).sent, ∀ r ∈ p.2.msg.carried,
      r.sequence ≤ (n.handleRumor c header rumors).node.lastSeq r.origin) :
    Learns header.relayedBy rumors n (n.handleRumor c header rumors).node
      (n.handleRumor c header rumors).sent := by
  have looped := routed.rumorLoop c header rumors 0
  unfold Node.handleRumor at covered ⊢
  dsimp only at covered ⊢
  split at covered
  · next forwards =>
    rw [if_pos forwards]
    refine looped.trans ?_
    unfold forwardRumorsMessage at covered ⊢
    split
    · exact looped.routed.stays (passes_nil _)
    · next neighbor neighbors found =>
      dsimp only
      split
      · exact looped.routed.stays (passes_nil _)
      · next pkt sent =>
        have packet := transmit_packet sent
        simp only [found, sent] at covered
        have carried : ∀ r ∈ pkt.msg.carried,
            (Node.rumorLoop c header 0 n rumors).1.node.Covers r := fun r mem =>
          .inr (covered _ (List.mem_append_right _ List.mem_cons_self) r mem)
        refine looped.routed.learns rfl rfl rfl rfl rfl (fun task mem r held => ?_) ?_
        · rcases List.mem_append.mp mem with mem | mem
          · exact looped.routed.tasks task mem r held
          · rw [List.mem_singleton.mp mem] at held
            exact carried r held
        · subst packet
          exact passes_packet carried
  · next quiet =>
    rw [if_neg quiet]
    exact looped

/-! ## Steps -/

/-- A goroutine is started that carries covered rumors. -/
theorem Routed.spawn (routed : n.Routed) {task : Task} (address : n'.address = n.address)
    (rumorDB : n'.rumorDB = n.rumorDB) (receivedSeq : n'.receivedSeq = n.receivedSeq)
    (directPeers : n'.directPeers = n.directPeers)
    (routingTable : n'.routingTable = n.routingTable) (tasks : n'.tasks = n.tasks ++ [task])
    (covered : ∀ r ∈ task.carried, n.Covers r) (passes : n.Passes sent) :
    Learns via rumors n n' sent := by
  refine routed.learns address rumorDB receivedSeq directPeers routingTable ?_ passes
  intro task' mem r carried
  rw [tasks] at mem
  rcases List.mem_append.mp mem with mem | mem
  · exact routed.tasks task' mem r carried
  · rw [List.mem_singleton.mp mem] at carried
    exact covered r carried

theorem Routed.broadCastRoutine (routed : n.Routed) (neighbor : NeighborChoice) (c : SendChoice)
    {carried : List Rumor} (covered : ∀ r ∈ carried, n.Covers r) :
    Learns via rumors n (n.broadCastRoutine neighbor c carried).1
      (n.broadCastRoutine neighbor c carried).2 := by
  unfold Node.broadCastRoutine
  dsimp only
  split
  · exact routed.stays (passes_nil n)
  · split
    · exact routed.stays (passes_nil n)
    · next pkt sent =>
      have packet := transmit_packet sent
      subst packet
      exact routed.spawn rfl rfl rfl rfl rfl rfl covered (passes_packet covered)

theorem Routed.waitForAck (routed : n.Routed) (neighbor : NeighborChoice) (c : SendChoice)
    (wakeup : Wakeup) {rumorPkt : Packet} (sentTo : GoString) (registered : Bool)
    (covered : ∀ r ∈ rumorPkt.msg.carried, n.Covers r) :
    Learns via rumors n (n.waitForAck neighbor c wakeup rumorPkt sentTo registered).1
      (n.waitForAck neighbor c wakeup rumorPkt sentTo registered).2 := by
  unfold Node.waitForAck
  dsimp only
  split
  · split
    · exact routed.stays (passes_nil n)
    · exact routed.spawn rfl rfl rfl rfl rfl rfl covered (passes_nil n)
  · split
    · split
      · exact routed.learns rfl rfl rfl rfl rfl routed.tasks (passes_nil n)
      · exact routed.spawn rfl rfl rfl rfl rfl rfl covered (passes_nil n)
    · exact routed.spawn rfl rfl rfl rfl rfl rfl covered (passes_nil n)
  · split
    · exact routed.learns rfl rfl rfl rfl rfl routed.tasks (passes_nil n)
    · exact routed.spawn rfl rfl rfl rfl rfl rfl covered (passes_packet covered)
  · exact routed.spawn rfl rfl rfl rfl rfl rfl covered (passes_nil n)

theorem Routed.runTask (routed : n.Routed) (i : Nat) (neighbor : NeighborChoice) (c : SendChoice)
    (wakeup : Wakeup) :
    Learns via rumors n (n.runTask i neighbor c wakeup).1 (n.runTask i neighbor c wakeup).2 := by
  have rest : Learns via rumors n { n with tasks := n.tasks.eraseIdx i } [] :=
    routed.learns rfl rfl rfl rfl rfl
      (fun task mem => routed.tasks task (List.mem_of_mem_eraseIdx mem)) (passes_nil n)
  unfold Node.runTask
  dsimp only
  cases found : n.tasks[i]? with
  | none => exact routed.stays (passes_nil n)
  | some task =>
      have covered := routed.tasks task (List.mem_of_getElem? found)
      cases task with
      | broadCastRoutine carried =>
          exact rest.trans (rest.routed.broadCastRoutine neighbor c covered)
      | waitForAck pkt sentTo registered =>
          exact rest.trans (rest.routed.waitForAck neighbor c wakeup sentTo registered covered)

theorem Routed.addPeer (routed : n.Routed) (addrs : List GoString) :
    Learns via rumors n (n.addPeer addrs) [] := by
  induction addrs generalizing n with
  | nil => exact routed.stays (passes_nil n)
  | cons a addrs ih =>
      unfold Node.addPeer
      split
      · have added : Learns via rumors n { n with
            directPeers := n.directPeers.add a ()
            routingTable := n.routingTable.add a a } [] := by
          refine ⟨⟨routed.held, fun d foreign direct => ?_, routed.tasks⟩, rfl, fun _ _ => le_rfl,
            fun d foreign indirect => ?_, passes_nil _⟩
          · dsimp only at direct ⊢
            rw [FinMap.get_add] at direct ⊢
            split
            · next same => rw [same]
            · next other =>
              rw [if_neg other] at direct
              exact routed.direct d foreign direct
          · dsimp only at indirect ⊢
            rw [FinMap.get_add] at indirect ⊢
            split at indirect
            · cases indirect
            · next other => exact ⟨indirect, .inl ⟨rfl, if_neg other⟩⟩
        exact added.trans (ih added.routed)
      · exact ih routed

theorem Routed.broadcast (routed : n.Routed) (msg : Payload) :
    Learns via rumors n (n.broadcast msg) [] := by
  have seq : ∀ d, d ≠ n.address → (n.broadcast msg).lastSeq d = n.lastSeq d := by
    intro d foreign
    unfold lastSeq Node.broadcast
    dsimp only
    rw [FinMap.get_add_of_ne _ _ foreign]
  have grows : ∀ d, d ≠ n.address → n.lastSeq d ≤ (n.broadcast msg).lastSeq d :=
    fun d foreign => (seq d foreign).ge
  refine ⟨⟨routed.held.storeRumor trivial, routed.direct, fun task mem r carried => ?_⟩, rfl, grows,
    fun d foreign indirect => ⟨indirect, .inl ⟨seq d foreign, rfl⟩⟩, passes_nil _⟩
  rcases List.mem_append.mp mem with mem | mem
  · exact (routed.tasks task mem r carried).mono rfl grows
  · rw [List.mem_singleton.mp mem] at carried
    rw [List.mem_singleton.mp carried]
    exact .inl rfl

/-- A step of the node's own learns nothing. -/
theorem Routed.step (routed : n.Routed) {e : Event}
    (learnedOnly : ∀ origin relayAddr, e ≠ .setRoutingEntry origin relayAddr) :
    Learns [] [] n (n.step e).1 (n.step e).2 := by
  cases e with
  | addPeer addrs => exact routed.addPeer addrs
  | setRoutingEntry origin relayAddr => exact (learnedOnly origin relayAddr rfl).elim
  | broadcast msg => exact routed.broadcast msg
  | runTask i neighbor c wakeup => exact routed.runTask i neighbor c wakeup
  | antiEntropy c =>
      have passes : n.Passes (n.sendRandomStatusMessage c) := by
        unfold sendRandomStatusMessage
        split
        · exact passes_nil n
        · exact (n.sendStatusMessage_sends _ _).passes
      exact routed.stays passes
  | sendPayload dest header msg =>
      refine routed.stays fun p mem r carried => ?_
      rw [List.mem_singleton.mp mem] at carried
      cases carried

/-- Handling a packet learns from the rumors it carries.  A packet with rumors is at its
destination, so it is not relayed. -/
theorem Routed.handleIncomingPacket (routed : n.Routed) (c : PacketChoice) {pkt : Packet}
    (arrived : ∀ r ∈ pkt.msg.carried, pkt.header.destination = n.address)
    (covered : ∀ p ∈ (n.handleIncomingPacket c pkt).sent, ∀ r ∈ p.2.msg.carried,
      r.sequence ≤ (n.handleIncomingPacket c pkt).node.lastSeq r.origin) :
    Learns pkt.header.relayedBy pkt.msg.carried n (n.handleIncomingPacket c pkt).node
      (n.handleIncomingPacket c pkt).sent := by
  unfold Node.handleIncomingPacket at covered ⊢
  split
  · next here =>
    rw [if_pos here] at covered
    cases decoded : pkt.msg with
    | rumors rumors =>
        rw [decoded] at covered
        exact routed.handleRumor c.rumor pkt.header rumors covered
    | payload msg => exact routed.processPayload c.payload pkt.header 0 msg
  · next elsewhere =>
    refine routed.stays fun p mem r carried => ?_
    unfold relayPacket at mem
    dsimp only at mem
    split at mem
    · rw [List.mem_singleton.mp mem] at carried
      exact (elsewhere (arrived r carried)).elim
    · cases mem

end Learns

end Node

namespace Network

/-! ## Following routes -/

/-- The next hop at a node of a packet for a destination, as `handleIncomingPacket` and
`relayPacket` find it: a packet that has arrived goes no further. -/
def nextHop (net : Network) (destination address : GoString) : Option GoString :=
  if destination = (net.nodes address).address then none
  else (net.nodes address).routingTable.get destination

/-- From every node, following next hops visits no node twice. -/
def LoopFree (net : Network) : Prop :=
  ∀ destination address i j visited,
    PointerWalk.after (net.nextHop destination) i address = some visited →
      PointerWalk.after (net.nextHop destination) j address = some visited → i = j

/-- The step is no call of `SetRoutingEntry`. -/
def learned : Event → Bool
  | .setRoutingEntry _ _ => false
  | _ => true

/-- Routes are set by `AddPeer` and by received rumors only, and a node that handles a packet sends
on no rumor beyond its own view. -/
def PassesSeen (net : Network) : Action → Prop
  | .act _ e => learned e
  | .deliver i c => ∀ arriving ∈ net.sent[i]?,
      let o := (net.nodes arriving.1).handleIncomingPacket c arriving.2
      ∀ p ∈ o.sent, ∀ r ∈ p.2.msg.carried, r.sequence ≤ o.node.lastSeq r.origin

instance (net : Network) : ∀ a, Decidable (net.PassesSeen a)
  | .act _ e => inferInstanceAs (Decidable (learned e = true))
  | .deliver i _ => inferInstanceAs (Decidable (∀ arriving ∈ net.sent[i]?, _))

section Ranked

variable {net : Network} {stamp : GoString → GoString → Nat} {clock : Nat}

/-- On the way to a destination, `b` comes after `a`: it is the destination, or it has seen more of
its rumors than `a`, or as many since an earlier time. -/
def Closer (net : Network) (stamp : GoString → GoString → Nat) (d b a : GoString) : Prop :=
  a ≠ d ∧ (b = d ∨ (net.nodes a).lastSeq d < (net.nodes b).lastSeq d ∨
    (net.nodes a).lastSeq d = (net.nodes b).lastSeq d ∧ stamp b d < stamp a d)

/-- The invariant: a stamp for every node and origin, the time when the node last saw a new rumor of
the origin, by which every hop comes closer; and every rumor on its way is covered by the node that
sent it. -/
structure Ranked (net : Network) (stamp : GoString → GoString → Nat) (clock : Nat) : Prop where
  address : ∀ a, (net.nodes a).address = a
  routed : ∀ a, (net.nodes a).Routed
  stamps : ∀ a d, stamp a d < clock
  sent : ∀ p ∈ net.sent, ∀ r ∈ p.2.msg.carried,
    p.2.header.destination = p.1 ∧ (net.nodes p.2.header.relayedBy).Covers r
  hops : ∀ a d next, a ≠ d → (net.nodes a).directPeers.get d = none →
    (net.nodes a).routingTable.get d = some next → net.Closer stamp d next a

theorem Closer.trans {d a b c : GoString} (second : net.Closer stamp d c b)
    (first : net.Closer stamp d b a) : net.Closer stamp d c a := by
  obtain ⟨onTheWay, later⟩ := second
  obtain ⟨start, earlier⟩ := first
  refine ⟨start, ?_⟩
  rcases later with arrived | later
  · exact .inl arrived
  · rcases earlier with arrived | earlier
    · exact (onTheWay arrived).elim
    · right
      omega

theorem Closer.irrefl {d a : GoString} : ¬ net.Closer stamp d a a := by
  rintro ⟨start, arrived | more | since⟩
  · exact start arrived
  · omega
  · omega

theorem Ranked.closer (ranked : Ranked net stamp clock) {d a next : GoString}
    (hop : net.nextHop d a = some next) : net.Closer stamp d next a := by
  unfold nextHop at hop
  rw [ranked.address] at hop
  split at hop
  · cases hop
  · next different =>
    have start : a ≠ d := fun same => different same.symm
    by_cases indirect : (net.nodes a).directPeers.get d = none
    · exact ranked.hops a d next start indirect hop
    · have direct := (ranked.routed a).direct d (by rw [ranked.address]; exact different) indirect
      rw [direct] at hop
      exact ⟨start, .inl (Option.some.inj hop).symm⟩

theorem Ranked.loopFree (ranked : Ranked net stamp clock) : net.LoopFree := by
  intro d a i j visited first again
  have trans : ∀ a b c, net.Closer stamp d c b → net.Closer stamp d b a →
      net.Closer stamp d c a := fun _ _ _ second first => second.trans first
  have edges : ∀ a b, net.nextHop d a = some b → net.Closer stamp d b a :=
    fun _ _ hop => ranked.closer hop
  exact PointerWalk.eq_of_visits_of_closer trans edges (fun _ => Closer.irrefl) first again

theorem initial_ranked (ackTimeout : GoString → Nat) :
    Ranked (initial ackTimeout) (fun _ _ => 0) 1 where
  address _ := rfl
  routed a := by
    refine ⟨?_, fun d _ direct => (direct rfl).elim, ?_⟩
    · intro origin rumors found
      cases found
    · intro task mem
      cases mem
  stamps _ _ := Nat.one_pos
  sent := by
    intro p mem
    cases mem
  hops a d next start _ route := by
    have own : (newPeer a (ackTimeout a)).routingTable.get d = some next := route
    unfold newPeer at own
    rw [FinMap.get_add_of_ne _ _ (Ne.symm start)] at own
    cases own

/-- The stamps once the node `a` has become `n'` at time `clock`. -/
def restamp (net : Network) (stamp : GoString → GoString → Nat) (clock : Nat) (a : GoString)
    (n' : Node) (b d : GoString) : Nat :=
  if b = a ∧ n'.lastSeq d ≠ (net.nodes a).lastSeq d then clock else stamp b d

section Hop

variable {a via b d next : GoString} {rumors : List Rumor} {n' : Node} {sent sent' : List Sent}
  {broadcasts : GoString → List Payload}

/-- The next hop of the node `a` comes closer after it has learned from rumors covered by the node
which relayed them. -/
theorem Ranked.hop_here (ranked : Ranked net stamp clock)
    (learns : Node.Learns via rumors (net.nodes a) n' sent)
    (covered : ∀ r ∈ rumors, (net.nodes via).Covers r) (start : a ≠ d)
    (indirect : n'.directPeers.get d = none) (route : n'.routingTable.get d = some next) :
    Closer ⟨Function.update net.nodes a n', sent', broadcasts⟩ (net.restamp stamp clock a n') d next
      a := by
  refine ⟨start, ?_⟩
  by_cases arrived : next = d
  · exact .inl arrived
  right
  unfold restamp
  simp only [Function.update_self, true_and]
  have foreign : d ≠ (net.nodes a).address := by
    rw [ranked.address]
    exact start.symm
  obtain ⟨indirect', same | ⟨lt, ⟨r, mem, origin, number⟩, routes⟩⟩ :=
    learns.learned d foreign indirect
  · -- Neither the view nor the route has changed.
    obtain ⟨seq, unchanged⟩ := same
    rw [unchanged] at route
    have before := ranked.hops a d next start indirect' route
    have elsewhere : next ≠ a := by
      rintro rfl
      exact Closer.irrefl before
    rcases before.2 with arrived' | closer
    · exact (arrived arrived').elim
    · rw [Function.update_of_ne elsewhere, seq]
      simp only [elsewhere, false_and, if_false, ne_eq, not_true, if_false]
      exact closer
  · -- The node that relayed the rumor had seen it before.
    have through := routes next route
    subst through
    rcases covered r mem with own | seen
    · rw [ranked.address, origin] at own
      exact (arrived own.symm).elim
    · rw [origin, number] at seen
      have elsewhere : next ≠ a := by
        rintro rfl
        omega
      have stamped := ranked.stamps next d
      rw [Function.update_of_ne elsewhere]
      simp only [elsewhere, false_and, if_false, ne_eq]
      rw [if_pos (by omega)]
      omega

/-- The next hop of another node is as close as before, or closer. -/
theorem Ranked.hop_elsewhere (ranked : Ranked net stamp clock)
    (learns : Node.Learns via rumors (net.nodes a) n' sent) (other : b ≠ a) (start : b ≠ d)
    (indirect : (net.nodes b).directPeers.get d = none)
    (route : (net.nodes b).routingTable.get d = some next) :
    Closer ⟨Function.update net.nodes a n', sent', broadcasts⟩ (net.restamp stamp clock a n') d next
      b := by
  refine ⟨start, ?_⟩
  by_cases arrived : next = d
  · exact .inl arrived
  right
  unfold restamp
  simp only [Function.update_of_ne other, other, false_and, if_false]
  rcases (ranked.hops b d next start indirect route).2 with arrived' | closer
  · exact (arrived arrived').elim
  · by_cases there : next = a
    · subst there
      have more := learns.grows d (by rw [ranked.address]; exact Ne.symm arrived)
      simp only [Function.update_self, true_and, ne_eq]
      split <;> omega
    · rw [Function.update_of_ne there]
      simp only [there, false_and, if_false]
      exact closer

/-- Every hop comes closer after the node `a` has learned from rumors covered by the node which
relayed them. -/
theorem Ranked.hop (ranked : Ranked net stamp clock)
    (learns : Node.Learns via rumors (net.nodes a) n' sent)
    (covered : ∀ r ∈ rumors, (net.nodes via).Covers r) (start : b ≠ d)
    (indirect : (Function.update net.nodes a n' b).directPeers.get d = none)
    (route : (Function.update net.nodes a n' b).routingTable.get d = some next) :
    Closer ⟨Function.update net.nodes a n', sent', broadcasts⟩ (net.restamp stamp clock a n') d next
      b := by
  by_cases here : b = a
  · subst here
    rw [Function.update_self] at indirect route
    exact ranked.hop_here learns covered start indirect route
  · rw [Function.update_of_ne here] at indirect route
    exact ranked.hop_elsewhere learns here start indirect route

end Hop

/-- A node that learns from rumors covered by the node which relayed them keeps the invariant. -/
theorem Ranked.learns (ranked : Ranked net stamp clock) {a via : GoString} {rumors : List Rumor}
    {n' : Node} {sent : List Sent} {broadcasts : GoString → List Payload}
    (learns : Node.Learns via rumors (net.nodes a) n' sent)
    (covered : ∀ r ∈ rumors, (net.nodes via).Covers r) :
    Ranked ⟨Function.update net.nodes a n', net.sent ++ sent, broadcasts⟩
      (net.restamp stamp clock a n') (clock + 1) := by
  have own : n'.address = a := learns.address.trans (ranked.address a)
  have covers : ∀ b r, (net.nodes b).Covers r → (Function.update net.nodes a n' b).Covers r := by
    intro b r covers
    by_cases here : b = a
    · subst here
      rw [Function.update_self]
      exact covers.mono learns.address learns.grows
    · rw [Function.update_of_ne here]
      exact covers
  refine ⟨?_, ?_, fun b d => ?_, fun p mem r carried => ?_, fun b d next start indirect route => ?_⟩
  · apply (Function.forall_update_iff net.nodes fun b n => n.address = b).mpr
    exact ⟨own, fun b _ => ranked.address b⟩
  · apply (Function.forall_update_iff net.nodes fun _ n => n.Routed).mpr
    exact ⟨learns.routed, fun b _ => ranked.routed b⟩
  · have before := ranked.stamps b d
    unfold restamp
    split <;> omega
  · rcases List.mem_append.mp mem with mem | mem
    · obtain ⟨destination, seen⟩ := ranked.sent p mem r carried
      exact ⟨destination, covers _ r seen⟩
    · obtain ⟨destination, relayedBy, seen⟩ := learns.passes p mem r carried
      rw [relayedBy, own]
      refine ⟨destination, ?_⟩
      dsimp only
      rw [Function.update_self]
      exact seen
  · exact ranked.hop learns covered start indirect route

/-- The node that does something in a step. -/
def actor (net : Network) : Action → Option GoString
  | .act address _ => some address
  | .deliver i _ => net.sent[i]?.map Prod.fst

/-- In a step a node learns from rumors covered by the node which relayed them, or nothing
changes. -/
theorem Ranked.step_learns (ranked : Ranked net stamp clock) {a : Action}
    (passes : net.PassesSeen a) :
    net.step a = net ∨ ∃ actor via rumors n' sent broadcasts, net.actor a = some actor ∧
      Node.Learns via rumors (net.nodes actor) n' sent ∧
      (∀ r ∈ rumors, (net.nodes via).Covers r) ∧
      net.step a = ⟨Function.update net.nodes actor n', net.sent ++ sent, broadcasts⟩ := by
  cases a with
  | act address e =>
      have learnedOnly : ∀ origin relayAddr, e ≠ .setRoutingEntry origin relayAddr := by
        rintro origin relayAddr rfl
        cases passes
      have learns := (ranked.routed address).step learnedOnly
      refine .inr ⟨address, _, _, _, _, _, rfl, learns, fun r mem => ?_, rfl⟩
      cases mem
  | deliver i c =>
      cases found : net.sent[i]? with
      | none =>
          left
          simp only [Network.step, found]
      | some packet =>
          have onTheWay := ranked.sent packet (List.mem_of_getElem? found)
          have arrived : ∀ r ∈ packet.2.msg.carried,
              packet.2.header.destination = (net.nodes packet.1).address := by
            intro r carried
            rw [ranked.address]
            exact (onTheWay r carried).1
          have learns := (ranked.routed packet.1).handleIncomingPacket c arrived
            (passes packet found)
          refine .inr ⟨packet.1, _, _, _, _, net.broadcasts, ?_, learns,
            fun r carried => (onTheWay r carried).2, ?_⟩
          · simp only [actor, found, Option.map_some]
          · simp only [Network.step, found]

theorem Ranked.step (ranked : Ranked net stamp clock) {a : Action} (passes : net.PassesSeen a) :
    ∃ stamp' clock', Ranked (net.step a) stamp' clock' := by
  rcases ranked.step_learns passes with same | ⟨_, _, _, _, _, _, -, learns, covered, same⟩
  · rw [same]
    exact ⟨stamp, clock, ranked⟩
  · rw [same]
    exact ⟨_, _, ranked.learns learns covered⟩

end Ranked

/-- **Loop-free routes.**  In every run in which routes are only learned, and in which no node sends
on a rumor that it has not itself accepted, following next hops for a destination visits no node
twice. -/
theorem reachable_loopFree (ackTimeout : GoString → Nat) (actions : List Action)
    (passes : Run.Always step PassesSeen (initial ackTimeout) actions) :
    (Run.run step (initial ackTimeout) actions).LoopFree := by
  have ranked : ∃ stamp clock, Ranked (Run.run step (initial ackTimeout) actions) stamp clock := by
    apply passes.run_invariant (I := fun net => ∃ stamp clock, Ranked net stamp clock)
    · exact ⟨_, _, initial_ranked ackTimeout⟩
    · rintro net a ⟨stamp, clock, ranked⟩ passes
      exact ranked.step passes
  obtain ⟨stamp, clock, ranked⟩ := ranked
  exact ranked.loopFree

/-! ## A loop -/

/-- The packet with index `i` arrives, and nothing fails. -/
def arrives (i : Nat) : Action := .deliver i (samplePacket none)

/-- The anti-entropy of a node sends a status to its neighbor with index `i`. -/
def sendsStatus (address : String) (i : Nat) : Action :=
  .act (str address) (.antiEntropy ⟨.sorted, .sorted, ⟨.sorted, i⟩, false, sampleSend, sampleSend⟩)

/-- A node broadcasts a chat message. -/
def announces (address : String) : Action :=
  .act (str address) (.broadcast (.other (str "chat") []))

/-- The goroutine with index `task` of a node sends its rumors to the neighbor with index `i`. -/
def spreads (address : String) (task i : Nat) : Action :=
  .act (str address) (.runTask task ⟨.sorted, i⟩ sampleSend .begins)

/-- `x` and `z` get the first rumor of `d`: `x` through `z`, and `z` from `d` itself. -/
def firstRumor : List Action :=
  [.act (str "d") (.addPeer [str "w", str "z"]), .act (str "z") (.addPeer [str "x"]),
    .act (str "w") (.addPeer [str "x"]), .act (str "x") (.addPeer [str "z"]),
    announces "d", spreads "d" 0 1, arrives 0, arrives 2]

/-- `z` gets the second rumor of `d`, and so does `w`, together with the first; `x` does not.  Then
`d` gets a rumor of `z`, and sends it to `w` in one packet with its own third rumor.  `w` forwards
the packet to `x`, which skips the third rumor of `d` but accepts the one of `z`, and so forwards
the packet to `z`. -/
def skippedRumor : List Action :=
  [announces "d", spreads "d" 1 1, arrives 4, sendsStatus "d" 0, arrives 7, arrives 8, arrives 9,
    announces "z", sendsStatus "d" 1, arrives 13, arrives 14,
    announces "d", sendsStatus "d" 0, arrives 17, arrives 18, arrives 19, arrives 22, arrives 24]

/-- The index of the packet that arrives. -/
def arrival : Action → Option Nat
  | .act _ _ => none
  | .deliver i _ => some i

/-- The route from `x` to `d` leads through `z` and back to `x`, although routes are only learned
and every packet arrives at most once. -/
theorem looping_routes :
    (∀ a ∈ firstRumor ++ skippedRumor, ∀ address origin relayAddr,
        a ≠ .act address (.setRoutingEntry origin relayAddr)) ∧
      ((firstRumor ++ skippedRumor).filterMap arrival).Nodup ∧
      ¬ (Run.run step (initial fun _ => 0) (firstRumor ++ skippedRumor)).LoopFree := by
  refine ⟨?_, by decide +kernel, fun loopFree => ?_⟩
  · intro a mem address origin relayAddr same
    subst same
    simp [firstRumor, skippedRumor, arrives, sendsStatus, announces, spreads] at mem
  · have again : PointerWalk.after ((Run.run step (initial fun _ => 0)
        (firstRumor ++ skippedRumor)).nextHop (str "d")) 2 (str "x") = some (str "x") := by
      decide +kernel
    have same := loopFree (str "d") (str "x") 0 2 (str "x") rfl again
    cases same

/-- After the first rumor alone there is none. -/
theorem loopFree_firstRumor :
    (Run.run step (initial fun _ => 0) firstRumor).LoopFree :=
  reachable_loopFree (fun _ => 0) firstRumor (by decide +kernel)

end Network

end Peerster.Gossip
