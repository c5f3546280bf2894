import Peerster.Gossip.Nesting

/-!
# Acknowledgements of a packet of rumors

`handleRumor` acknowledges a packet inside its loop, each time it accepts a rumor, and so do the
calls for the rumors that a rumor embeds, which work on the header of the same packet.  A packet
without a rumor that is next in the view gets no acknowledgement, and one with several gets as many.
It is acknowledged once, with the view in the end, when exactly one rumor is next (`OneNext`).
-/

namespace Peerster.Gossip

/-- The packet sent acknowledges a packet ID. -/
def acknowledges (packetID : GoString) (p : Sent) : Bool :=
  match p.2.msg with
  | .payload (.ack ackedPacketID _) => ackedPacketID = packetID
  | _ => false

/-- The acknowledgements of a packet ID among the packets sent. -/
def acks (packetID : GoString) (sent : List Sent) : List Sent :=
  sent.filter (acknowledges packetID)

@[simp] theorem acks_append (packetID : GoString) (sent sent' : List Sent) :
    acks packetID (sent ++ sent') = acks packetID sent ++ acks packetID sent' :=
  List.filter_append sent sent'

theorem acks_eq_nil {packetID : GoString} {sent : List Sent}
    (others : ∀ p ∈ sent, acknowledges packetID p = false) : acks packetID sent = [] :=
  List.filter_eq_nil_iff.mpr fun p mem => Bool.eq_false_iff.mp (others p mem)

/-! ## The condition -/

/-- The message is one of rumors, itself or inside private messages for an address. -/
def Payload.reaches (address : GoString) : Payload → Bool
  | .privateMessage recipients msg => address ∈ recipients ∧ msg.reaches address
  | .other type _ => type = str "rumor"
  | _ => false

theorem Payload.reaches_privateMessage (address : GoString) (recipients : List GoString)
    (msg : Payload) : (Payload.privateMessage recipients msg).reaches address =
      decide (address ∈ recipients ∧ msg.reaches address = true) := rfl

theorem Payload.reaches_other (address type : GoString) (content : Bytes) :
    (Payload.other type content).reaches address = decide (type = str "rumor") := rfl

namespace Nested

/-- No rumor of the message is the next of its origin. -/
def NoneNext (view : GoString → Nat) : Nested → Prop
  | .nil => True
  | .cons rumor _ rest => rumor.sequence ≠ view rumor.origin + 1 ∧ NoneNext view rest

/-- One rumor of the message is the next of its origin, and once it has been accepted none of those
after it is; nor is any of those inside it, if they are for the node with the address. -/
def OneNext (address : GoString) (view : GoString → Nat) : Nested → Prop
  | .nil => False
  | .cons rumor embedded rest =>
      if rumor.sequence = view rumor.origin + 1 then
        (rumor.msg.reaches address = true → embedded.NoneNext view) ∧
          rest.NoneNext (Function.update view rumor.origin rumor.sequence)
      else OneNext address view rest

end Nested

/-- No handler of a message of another type sends an acknowledgement. -/
def LayerChoice.Ackless (c : LayerChoice) : Prop :=
  ∀ m ∈ c.handlerSends, ∀ packetID view, m.2.2 ≠ .ack packetID view

/-- Nothing fails while the rumors of a packet are handled, at any depth, and no other handler sends
acknowledgements. -/
structure Undisturbed (c : List Nat → RumorChoice) : Prop where
  succeeds : ∀ path i, (c path).SucceedsAt i
  ackless : ∀ path i depth, ((c path).embedded i depth).Ackless

namespace Node

variable {n : Node}

/-! ## What the other handlers send -/

theorem SendsStatus.acks {sent : List Sent} (statuses : n.SendsStatus sent)
    (packetID : GoString) : acks packetID sent = [] := by
  apply acks_eq_nil
  intro p mem
  obtain ⟨c, pkt⟩ := statuses p mem
  unfold acknowledges
  rw [pkt]
  rfl

theorem acks_handleStatusMessage (n : Node) (c : StatusChoice) (header : Header)
    (view : StatusMessage) (packetID : GoString) :
    acks packetID (n.handleStatusMessage c header view) = [] := by
  obtain ⟨statuses, views, sends⟩ := n.handleStatusMessage_sends c header view
  rw [sends, acks_append, views.acks]
  rcases n.sendMissingRumors_sends c header.source (n.compareViews c view).2 with none | some
  · rw [none]
    rfl
  · rw [some]
    rfl

theorem acks_processPayload {c : Nat → LayerChoice} (ackless : ∀ depth, (c depth).Ackless)
    (n : Node) (header : Header) (depth : Nat) (msg : Payload) (packetID : GoString) :
    acks packetID (n.processPayload c header depth msg).sent = [] := by
  induction msg generalizing depth with
  | status view =>
      unfold processPayload
      rw [notified_sent]
      exact n.acks_handleStatusMessage _ _ _ _
  | ack ackedPacketID view =>
      unfold processPayload handleAckMessage
      rw [notified_sent]
      dsimp only
      split
      · rfl
      · rw [notified_sent]
        exact acks_handleStatusMessage _ _ _ _ _
  | privateMessage recipients msg ih =>
      unfold processPayload
      split
      · rw [notified_sent]
        exact ih (depth + 1)
      · rw [notified_sent]
        rfl
  | other type content =>
      unfold processPayload
      rw [notified_sent]
      apply acks_eq_nil
      intro p mem
      obtain ⟨m, listed, rfl⟩ := List.mem_map.mp mem
      obtain ⟨dest, header, msg⟩ := m
      unfold acknowledges
      cases msg with
      | ack ackedPacketID view => exact (ackless depth _ listed ackedPacketID view rfl).elim
      | _ => rfl

/-- Forwarding a message of rumors is no acknowledgement. -/
theorem finishRumors_spec (c : RumorChoice) (header : Header) (rumors : List Rumor) (o : Outcome)
    (processedRumor : Bool) (packetID : GoString) :
    acks packetID (finishRumors c header rumors o processedRumor).sent = acks packetID o.sent ∧
      (finishRumors c header rumors o processedRumor).err = o.err ∧
      (finishRumors c header rumors o processedRumor).node.address = o.node.address := by
  unfold finishRumors
  split
  · next done =>
    unfold forwardRumorsMessage
    dsimp only
    rw [done.1]
    split
    · exact ⟨by rw [List.append_nil], rfl, rfl⟩
    · split
      · exact ⟨by rw [List.append_nil], rfl, rfl⟩
      · next neighbor neighbors listed pkt sent =>
        rw [acks_append, transmit_packet sent]
        exact ⟨List.append_nil _, rfl, rfl⟩
  · exact ⟨rfl, rfl, rfl⟩

/-- An embedded message acknowledges what the rumors inside it do, if they reach the node. -/
theorem processEmbedded_spec {c : Nat → LayerChoice} (succeeds : ∀ depth, (c depth).Succeeds)
    (ackless : ∀ depth, (c depth).Ackless) (n : Node) (header : Header) (inner : Handling)
    (fine : inner.outcome.err = none) (depth : Nat) (msg : Payload) (packetID : GoString) :
    (n.processEmbedded c header inner depth msg).outcome.err = none ∧
      acks packetID (n.processEmbedded c header inner depth msg).outcome.sent =
        (if msg.reaches n.address then acks packetID inner.outcome.sent else []) ∧
      (n.processEmbedded c header inner depth msg).writes =
        (if msg.reaches n.address then inner.writes else []) ∧
      (n.processEmbedded c header inner depth msg).outcome.node.receivedSeq =
        if msg.reaches n.address then inner.outcome.node.receivedSeq else n.receivedSeq := by
  have plain : ∀ depth msg, (n.processPayload c header depth msg).err = none ∧
      acks packetID (n.processPayload c header depth msg).sent = [] ∧
      (n.processPayload c header depth msg).node.receivedSeq = n.receivedSeq := fun depth msg =>
    ⟨processPayload_err succeeds depth msg, acks_processPayload ackless n header depth msg packetID,
      (processPayload_frame n c header depth msg).2.1⟩
  induction msg generalizing depth with
  | status view =>
      obtain ⟨err, none, same⟩ := plain depth (.status view)
      exact ⟨err, none, rfl, same⟩
  | ack ackedPacketID view =>
      obtain ⟨err, none, same⟩ := plain depth (.ack ackedPacketID view)
      exact ⟨err, none, rfl, same⟩
  | privateMessage recipients msg ih =>
      rw [processEmbedded_private, Payload.reaches_privateMessage]
      by_cases meant : n.address ∈ recipients
      · obtain ⟨err, acked, writes, same⟩ := ih (depth + 1)
        rw [if_pos meant]
        simp only [meant, true_and, decide_eq_true_eq, notified_sent, notified_node]
        refine ⟨notified_err (succeeds depth) ?_, acked, writes, same⟩
        dsimp only
        rw [err]
        rfl
      · rw [if_neg meant]
        simp only [meant, false_and, decide_false, Bool.false_eq_true, if_false, notified_node]
        exact ⟨notified_err (succeeds depth) rfl, by rw [notified_sent]; rfl, trivial, trivial⟩
  | other type content =>
      rw [processEmbedded_other, Payload.reaches_other]
      by_cases rumors : type = str "rumor"
      · rw [if_pos rumors]
        simp only [rumors, decide_true, if_true, notified_sent, notified_node]
        exact ⟨notified_err (succeeds depth) fine, trivial, trivial, trivial⟩
      · rw [if_neg rumors]
        simp only [rumors, decide_false, Bool.false_eq_true, if_false]
        obtain ⟨err, none, same⟩ := plain depth (.other type content)
        exact ⟨err, none, trivial, same⟩

/-! ## The loop -/

section Loop

variable {c : List Nat → RumorChoice} {header : Header} {rumor : Rumor} {embedded rest : Nested}
  {path : List Nat} {i : Nat}

/-- What the loop makes of the message that a rumor embeds. -/
def handleWithin (c : List Nat → RumorChoice) (header : Header) (path : List Nat) (i : Nat)
    (n : Node) (rumor : Rumor) (embedded : Nested) : Handling :=
  let stored := { n with rumorDB := storeRumor n.rumorDB rumor }
  let within := nestedLoop c header (i :: path) 0 stored embedded
  stored.processEmbedded ((c path).embedded i) header
    ⟨finishRumors (c (i :: path)) header embedded.rumors within.1.outcome within.2,
      within.1.writes⟩ 0 rumor.msg

/-- The acknowledgement that the loop sends once it has accepted a rumor. -/
def ackFor (n : Node) (c : SendChoice) (header : Header) : Sent :=
  (header.source, n.packet c header.source
    (.payload (.ack header.packetID n.createStatusMessage)))

theorem nestedLoop_skip (skipped : rumor.sequence ≠ n.lastSeq rumor.origin + 1) :
    nestedLoop c header path i n (.cons rumor embedded rest) =
      nestedLoop c header path (i + 1) n rest := by
  conv_lhs => unfold nestedLoop
  exact if_neg skipped

theorem nestedLoop_accept (undisturbed : Undisturbed c)
    (next : rumor.sequence = n.lastSeq rumor.origin + 1)
    (fine : (handleWithin c header path i n rumor embedded).outcome.err = none) :
    let h := handleWithin c header path i n rumor embedded
    let n' := h.outcome.node.acceptRumor header rumor
    let after := (nestedLoop c header path (i + 1) n' rest).1
    (nestedLoop c header path i n (.cons rumor embedded rest)).1 =
      ⟨⟨after.outcome.node,
          h.outcome.sent ++ n'.ackFor ((c path).ack i) header :: after.outcome.sent,
          after.outcome.err,
          h.outcome.executed.map (Execution.within i rumor) ++ after.outcome.executed⟩,
        h.writes ++ ⟨rumor.origin, h.outcome.node.lastSeq rumor.origin, rumor.sequence⟩ ::
          after.writes⟩ := by
  intro h n' after
  have acked : n'.sendAckMessage ((c path).ack i) header =
      .ok (n'.ackFor ((c path).ack i) header) := by
    unfold sendAckMessage
    rw [(undisturbed.succeeds path i).2.1, (undisturbed.succeeds path i).2.2]
    rfl
  unfold handleWithin at fine
  dsimp only at fine
  conv_lhs => unfold nestedLoop
  rw [if_pos next]
  dsimp only
  rw [fine]
  dsimp only
  unfold n' h handleWithin at acked
  dsimp only at acked
  rw [acked]
  rfl

/-- The message that a rumor embeds does what the loop over the rumors inside it does, if they reach
the node. -/
theorem handleWithin_spec (undisturbed : Undisturbed c) (header : Header) (path : List Nat)
    (i : Nat) (n : Node) (rumor : Rumor) (embedded : Nested)
    (fine : (nestedLoop c header (i :: path) 0 { n with rumorDB := storeRumor n.rumorDB rumor }
      embedded).1.outcome.err = none) :
    let within := (nestedLoop c header (i :: path) 0
      { n with rumorDB := storeRumor n.rumorDB rumor } embedded).1
    let h := handleWithin c header path i n rumor embedded
    h.outcome.err = none ∧
      acks header.packetID h.outcome.sent =
        (if rumor.msg.reaches n.address then acks header.packetID within.outcome.sent else []) ∧
      h.writes = (if rumor.msg.reaches n.address then within.writes else []) ∧
      h.outcome.node.receivedSeq =
        if rumor.msg.reaches n.address then within.outcome.node.receivedSeq else n.receivedSeq := by
  intro within h
  obtain ⟨acked, err, -⟩ := finishRumors_spec (c (i :: path)) header embedded.rumors within.outcome
    (nestedLoop c header (i :: path) 0 { n with rumorDB := storeRumor n.rumorDB rumor } embedded).2
    header.packetID
  have same := finishRumors_receivedSeq (c (i :: path)) header embedded.rumors within.outcome
    (nestedLoop c header (i :: path) 0 { n with rumorDB := storeRumor n.rumorDB rumor } embedded).2
  rw [← acked, ← same]
  exact processEmbedded_spec (undisturbed.succeeds path i).1 (undisturbed.ackless path i)
    { n with rumorDB := storeRumor n.rumorDB rumor } header
    ⟨_, within.writes⟩ (err.trans fine) 0 rumor.msg header.packetID

theorem acks_ackFor (n : Node) (c : SendChoice) (header : Header) (sent : List Sent) :
    acks header.packetID (n.ackFor c header :: sent) =
      n.ackFor c header :: acks header.packetID sent :=
  List.filter_cons_of_pos (decide_eq_true rfl)

/-- Nothing fails in the loop, and it acknowledges the packet as often as it writes to the view. -/
theorem nestedLoop_acks (undisturbed : Undisturbed c) (header : Header) (message : Nested)
    (path : List Nat) (i : Nat) (n : Node) :
    (nestedLoop c header path i n message).1.outcome.err = none ∧
      (acks header.packetID (nestedLoop c header path i n message).1.outcome.sent).length =
        (nestedLoop c header path i n message).1.writes.length := by
  induction message generalizing path i n with
  | nil => exact ⟨rfl, rfl⟩
  | cons rumor embedded rest inside later =>
      by_cases next : rumor.sequence = n.lastSeq rumor.origin + 1
      · obtain ⟨fine, counted⟩ :=
          inside (i :: path) 0 { n with rumorDB := storeRumor n.rumorDB rumor }
        obtain ⟨fine', acked, writes, -⟩ :=
          handleWithin_spec undisturbed header path i n rumor embedded fine
        have within : (acks header.packetID
            (handleWithin c header path i n rumor embedded).outcome.sent).length =
              (handleWithin c header path i n rumor embedded).writes.length := by
          rw [acked, writes]
          split
          · exact counted
          · rfl
        rw [nestedLoop_accept undisturbed next fine']
        dsimp only
        obtain ⟨fine'', counted'⟩ := later path (i + 1)
          ((handleWithin c header path i n rumor embedded).outcome.node.acceptRumor header rumor)
        refine ⟨fine'', ?_⟩
        rw [acks_append, acks_ackFor, List.length_append, List.length_append, within,
          List.length_cons, List.length_cons, counted']
      · rw [nestedLoop_skip next]
        exact later path (i + 1) n

/-- A message without a rumor that is next changes nothing and is not answered. -/
theorem nestedLoop_noneNext {message : Nested} {view : GoString → Nat}
    (none : message.NoneNext view) (c : List Nat → RumorChoice) (header : Header) (path : List Nat)
    (i : Nat) (same : n.lastSeq = view) :
    (nestedLoop c header path i n message).1 = ⟨⟨n, [], .none, []⟩, []⟩ := by
  subst same
  induction message generalizing i with
  | nil => rfl
  | cons rumor embedded rest inside later =>
      rw [nestedLoop_skip none.1]
      exact later (i + 1) none.2

theorem nestedLoop_writes_eq_nil (undisturbed : Undisturbed c) {message : Nested} :
    (nestedLoop c header path i n message).1.writes = [] ↔ message.NoneNext n.lastSeq := by
  constructor
  · intro nothing
    induction message generalizing i with
    | nil => trivial
    | cons rumor embedded rest inside later =>
        by_cases next : rumor.sequence = n.lastSeq rumor.origin + 1
        · have fine := (nestedLoop_acks undisturbed header embedded (i :: path) 0
            { n with rumorDB := storeRumor n.rumorDB rumor }).1
          rw [nestedLoop_accept undisturbed next
            (handleWithin_spec undisturbed header path i n rumor embedded fine).1] at nothing
          cases (List.append_eq_nil_iff.mp nothing).2
        · rw [nestedLoop_skip next] at nothing
          exact ⟨next, later nothing⟩
  · intro none
    rw [nestedLoop_noneNext none c header path i rfl]

/-- If no rumor inside is next, the embedded message is not acknowledged, and accepting the rumor is
the one write to the view. -/
theorem handleWithin_quiet (undisturbed : Undisturbed c) (header : Header) (path : List Nat)
    (i : Nat) (none : rumor.msg.reaches n.address = true → embedded.NoneNext n.lastSeq) :
    (handleWithin c header path i n rumor embedded).writes = [] ∧
      acks header.packetID (handleWithin c header path i n rumor embedded).outcome.sent = [] ∧
      ((handleWithin c header path i n rumor embedded).outcome.node.acceptRumor header
        rumor).lastSeq = Function.update n.lastSeq rumor.origin rumor.sequence := by
  have fine := (nestedLoop_acks undisturbed header embedded (i :: path) 0
    { n with rumorDB := storeRumor n.rumorDB rumor }).1
  obtain ⟨-, acked, writes, same⟩ :=
    handleWithin_spec undisturbed header path i n rumor embedded fine
  have received : (handleWithin c header path i n rumor embedded).outcome.node.receivedSeq =
      n.receivedSeq ∧ (handleWithin c header path i n rumor embedded).writes = [] ∧
      acks header.packetID (handleWithin c header path i n rumor embedded).outcome.sent = [] := by
    rw [acked, writes, same]
    split
    · next reaches =>
      rw [nestedLoop_noneNext (none reaches) c header (i :: path) 0
        (n := { n with rumorDB := storeRumor n.rumorDB rumor }) rfl]
      exact ⟨rfl, rfl, rfl⟩
    · exact ⟨rfl, rfl, rfl⟩
  refine ⟨received.2.1, received.2.2, funext fun origin => ?_⟩
  rw [lastSeq_acceptRumor, Function.update_apply]
  unfold lastSeq
  rw [received.1]

/-- If the embedded message writes nothing to the view, no rumor inside is next. -/
theorem noneNext_of_handleWithin (undisturbed : Undisturbed c)
    (nothing : (handleWithin c header path i n rumor embedded).writes = []) :
    rumor.msg.reaches n.address = true → embedded.NoneNext n.lastSeq := by
  intro reaches
  have fine := (nestedLoop_acks undisturbed header embedded (i :: path) 0
    { n with rumorDB := storeRumor n.rumorDB rumor }).1
  rw [(handleWithin_spec undisturbed header path i n rumor embedded fine).2.2.1,
    if_pos reaches] at nothing
  have none := (nestedLoop_writes_eq_nil undisturbed).mp nothing
  exact none

/-- Where one rumor is next, the loop writes to the view once, and the acknowledgement has the view
with that write. -/
theorem nestedLoop_oneNext (undisturbed : Undisturbed c) (header : Header) (message : Nested)
    (path : List Nat) (i : Nat) (n : Node) :
    ((nestedLoop c header path i n message).1.writes.length = 1 ↔
        message.OneNext n.address n.lastSeq) ∧
      (message.OneNext n.address n.lastSeq → ∃ c', acks header.packetID
        (nestedLoop c header path i n message).1.outcome.sent =
          [(nestedLoop c header path i n message).1.outcome.node.ackFor c' header]) := by
  induction message generalizing i with
  | nil =>
      refine ⟨⟨fun one => ?_, False.elim⟩, False.elim⟩
      cases one
  | cons rumor embedded rest inside later =>
      unfold Nested.OneNext
      by_cases next : rumor.sequence = n.lastSeq rumor.origin + 1
      · have fine := (nestedLoop_acks undisturbed header embedded (i :: path) 0
          { n with rumorDB := storeRumor n.rumorDB rumor }).1
        have fine' := (handleWithin_spec undisturbed header path i n rumor embedded fine).1
        rw [if_pos next, nestedLoop_accept undisturbed next fine']
        dsimp only
        constructor
        · constructor
          · intro one
            rw [List.length_append, List.length_cons] at one
            have none := noneNext_of_handleWithin undisturbed
              (List.length_eq_zero_iff.mp (by omega : (handleWithin c header path i n rumor
                embedded).writes.length = 0))
            have nothing : (nestedLoop c header path (i + 1)
                ((handleWithin c header path i n rumor embedded).outcome.node.acceptRumor header
                  rumor) rest).1.writes = [] := List.length_eq_zero_iff.mp (by omega)
            refine ⟨none, ?_⟩
            rw [← (handleWithin_quiet undisturbed header path i none).2.2]
            exact (nestedLoop_writes_eq_nil undisturbed).mp nothing
          · rintro ⟨none, noneAfter⟩
            obtain ⟨writes, -, view⟩ := handleWithin_quiet undisturbed header path i none
            rw [← view] at noneAfter
            rw [nestedLoop_noneNext noneAfter c header path (i + 1) rfl, writes]
            rfl
        · rintro ⟨none, noneAfter⟩
          obtain ⟨-, unacked, view⟩ := handleWithin_quiet undisturbed header path i none
          rw [← view] at noneAfter
          rw [nestedLoop_noneNext noneAfter c header path (i + 1) rfl]
          refine ⟨(c path).ack i, ?_⟩
          rw [acks_append, unacked, acks_ackFor]
          rfl
      · rw [if_neg next, nestedLoop_skip next]
        exact later (i + 1)

end Loop

/-! ## The handler -/

/-- The handler has sent one acknowledgement of the packet, to its source, with the view in the
end. -/
def AckedOnce (header : Header) (o : Outcome) : Prop :=
  ∃ c, acks header.packetID o.sent = [o.node.ackFor c header]

/-- **One acknowledgement for a packet.**  When nothing fails, a packet of rumors is acknowledged
exactly once, with the view after the whole message, if and only if exactly one rumor is next. -/
theorem handleNested_ackedOnce_iff (n : Node) {c : List Nat → RumorChoice}
    (undisturbed : Undisturbed c) (header : Header) (message : Nested) :
    AckedOnce header (n.handleNested c header message).outcome ↔
      message.OneNext n.address n.lastSeq := by
  have counted := nestedLoop_acks undisturbed header message [] 0 n
  obtain ⟨once, acked⟩ := nestedLoop_oneNext undisturbed header message [] 0 n
  obtain ⟨same, -, address⟩ := finishRumors_spec (c []) header message.rumors
    (nestedLoop c header [] 0 n message).1.outcome (nestedLoop c header [] 0 n message).2
    header.packetID
  have received := finishRumors_receivedSeq (c []) header message.rumors
    (nestedLoop c header [] 0 n message).1.outcome (nestedLoop c header [] 0 n message).2
  have view : ∀ c', (n.handleNested c header message).outcome.node.ackFor c' header =
      (nestedLoop c header [] 0 n message).1.outcome.node.ackFor c' header := by
    intro c'
    unfold handleNested ackFor Node.packet createStatusMessage
    dsimp only
    rw [address, received]
  unfold AckedOnce
  simp only [view]
  unfold handleNested
  dsimp only
  rw [same]
  constructor
  · rintro ⟨c', one⟩
    rw [one] at counted
    exact once.mp counted.2.symm
  · exact acked

/-! ## A packet that comes again -/

theorem undisturbed_sample : Undisturbed fun _ => (samplePacket none).rumor where
  succeeds path i := ⟨fun depth => ⟨rfl, rfl, rfl⟩, rfl, rfl⟩
  ackless path i depth m mem := by cases mem

/-- The header of a packet from `127.0.0.1:2`. -/
def rumorHeader : Header :=
  ⟨str "packet", str "127.0.0.1:2", str "127.0.0.1:2", str "127.0.0.1:1"⟩

/-- A packet with the first rumor of an origin, handled by a node without failures. -/
def handleFirst (n : Node) : Outcome :=
  (n.handleNested (fun _ => (samplePacket none).rumor) rumorHeader
    (.ofList [sampleRumor "127.0.0.1:2" 1])).outcome

/-- A rumor that is new is acknowledged once. -/
theorem ackedOnce_first : AckedOnce rumorHeader (handleFirst (newPeer (str "127.0.0.1:1") 0)) :=
  (handleNested_ackedOnce_iff _ undisturbed_sample _ _).mpr ⟨fun _ => trivial, trivial⟩

/-- When the same packet comes again, as it does if the acknowledgement was lost, it is not
acknowledged. -/
theorem not_ackedOnce_again :
    ¬ AckedOnce rumorHeader (handleFirst (handleFirst (newPeer (str "127.0.0.1:1") 0)).node) := by
  rintro ⟨c, one⟩
  have none : (acks rumorHeader.packetID
      (handleFirst (handleFirst (newPeer (str "127.0.0.1:1") 0)).node).sent).length = 0 := by
    decide +kernel
  rw [one] at none
  cases none

end Node

end Peerster.Gossip
