import Peerster.Gossip.Delivery

/-!
# One anti-entropy exchange

A node that handles a status sends the rumors the other node misses, and the other node accepts each
of them that is still new to it.  What a message of rumors does to a node, when nothing fails, can
be said for every origin on its own: the rumors of the origin are taken one by one, each if it is
the next (`rumorLoop_entry`).  So the order in which a message mixes origins does not matter, and
one exchange brings the view of the receiver to the maximum of the two views
(`exchange_closes_gap`).
-/

namespace Peerster.Gossip

/-! ## One origin at a time -/

/-- What a node knows of one origin: the last number seen, and the rumors stored. -/
@[ext] structure Entry where
  last : Option Nat
  stored : Option (List Rumor)

namespace Entry

/-- The entry after a rumor of its origin: the next rumor is stored and counted. -/
def take (e : Entry) (rumor : Rumor) : Entry :=
  if rumor.sequence = e.last.getD 0 + 1 then
    ⟨some rumor.sequence, (insertRumor (e.stored.getD []) rumor).or e.stored⟩
  else e

/-- The rumors of an origin that are taken, from the number `last` on. -/
def taken (last : Nat) : List Rumor → List Rumor
  | [] => []
  | rumor :: rumors =>
      if rumor.sequence = last + 1 then rumor :: taken rumor.sequence rumors else taken last rumors

theorem take_next {e : Entry} {rumor : Rumor} (next : rumor.sequence = e.last.getD 0 + 1) :
    e.take rumor = ⟨some rumor.sequence, (insertRumor (e.stored.getD []) rumor).or e.stored⟩ :=
  if_pos next

theorem take_skip {e : Entry} {rumor : Rumor} (skipped : rumor.sequence ≠ e.last.getD 0 + 1) :
    e.take rumor = e :=
  if_neg skipped

/-- Taking rumors with consecutive numbers, from at most the next one on. -/
theorem foldl_take_range' {rumors : List Rumor} {e : Entry} {s m : Nat}
    (numbers : rumors.map Rumor.sequence = List.range' s m) (overlaps : s ≤ e.last.getD 0 + 1) :
    (rumors.foldl take e).last.getD 0 = max (e.last.getD 0) (s + m - 1) ∧
      (taken (e.last.getD 0) rumors).map Rumor.sequence =
        List.range' (e.last.getD 0 + 1) (s + m - 1 - e.last.getD 0) := by
  induction rumors generalizing e s m with
  | nil =>
      have empty : m = 0 := by
        cases m with
        | zero => rfl
        | succ m => cases numbers
      subst empty
      have none : s + 0 - 1 - e.last.getD 0 = 0 := by omega
      rw [none]
      refine ⟨?_, rfl⟩
      rw [List.foldl_nil]
      omega
  | cons rumor rumors ih =>
      cases m with
      | zero => cases numbers
      | succ m =>
          rw [List.map_cons, List.range'_succ] at numbers
          obtain ⟨number, rest⟩ := List.cons.inj numbers
          rw [List.foldl_cons]
          unfold taken
          by_cases next : rumor.sequence = e.last.getD 0 + 1
          · rw [take_next next, if_pos next]
            obtain ⟨last, sequences⟩ := ih (e := ⟨some rumor.sequence,
              (insertRumor (e.stored.getD []) rumor).or e.stored⟩) rest (by simp [number])
            rw [Option.getD_some] at last sequences
            have length : s + (m + 1) - 1 - e.last.getD 0 = s + 1 + m - 1 - rumor.sequence + 1 := by
              omega
            refine ⟨last.trans (by omega), ?_⟩
            rw [List.map_cons, sequences, length, List.range'_succ, next]
          · rw [take_skip next, if_neg next]
            obtain ⟨last, sequences⟩ := ih rest (e := e) (by omega)
            have same : s + (m + 1) - 1 = s + 1 + m - 1 := by omega
            rw [same]
            exact ⟨last, sequences⟩

end Entry

/-- The rumors of an origin, in their order. -/
def ofOrigin (origin : GoString) (rumors : List Rumor) : List Rumor :=
  rumors.filter fun r => r.origin = origin

theorem ofOrigin_cons_self (rumor : Rumor) (rumors : List Rumor) :
    ofOrigin rumor.origin (rumor :: rumors) = rumor :: ofOrigin rumor.origin rumors :=
  List.filter_cons_of_pos (decide_eq_true rfl)

theorem ofOrigin_cons_of_ne {origin : GoString} {rumor : Rumor} (other : rumor.origin ≠ origin)
    (rumors : List Rumor) : ofOrigin origin (rumor :: rumors) = ofOrigin origin rumors :=
  List.filter_cons_of_neg fun same => other (of_decide_eq_true same)

/-- Nothing fails while a message is processed. -/
def LayerChoice.Succeeds (c : LayerChoice) : Prop :=
  c.marshalError = none ∧ c.handled = none ∧ c.notifyError = none

/-- Neither the embedded message of the rumor with index `i` nor its acknowledgement fails. -/
def RumorChoice.SucceedsAt (c : RumorChoice) (i : Nat) : Prop :=
  (∀ depth, (c.embedded i depth).Succeeds) ∧
    (c.ack i).marshalError = none ∧ (c.ack i).sendError = none

namespace Node

/-- The entry of a node for an origin. -/
def entry (n : Node) (origin : GoString) : Entry := ⟨n.receivedSeq.get origin, n.rumorDB.get origin⟩

theorem lastSeq_eq_entry (n : Node) (origin : GoString) :
    n.lastSeq origin = (n.entry origin).last.getD 0 := rfl

/-! ## A message of rumors -/

theorem notified_err {c : LayerChoice} {depth : Nat} {msg : Payload} {o : Outcome}
    (succeeds : c.Succeeds) (fine : o.err = none) : (notified c depth msg o).err = none := by
  unfold notified
  rw [fine]
  exact succeeds.2.2

theorem processPayload_err {n : Node} {c : Nat → LayerChoice} {header : Header}
    (succeeds : ∀ depth, (c depth).Succeeds) (depth : Nat) (msg : Payload) :
    (n.processPayload c header depth msg).err = none := by
  induction msg generalizing depth with
  | status view => exact notified_err (succeeds depth) rfl
  | ack ackedPacketID view =>
      apply notified_err (succeeds depth)
      unfold handleAckMessage
      rw [(succeeds depth).1]
      exact notified_err (succeeds (depth + 1)) rfl
  | privateMessage recipients msg ih =>
      unfold processPayload
      split
      · apply notified_err (succeeds depth)
        dsimp only
        rw [ih (depth + 1)]
        rfl
      · exact notified_err (succeeds depth) rfl
  | other type content => exact notified_err (succeeds depth) (succeeds depth).2.1

theorem processRumorMessage_err {n : Node} {c : Nat → LayerChoice} {header : Header}
    (succeeds : ∀ depth, (c depth).Succeeds) (rumor : Rumor) :
    (n.processRumorMessage c header rumor).err = none := by
  unfold processRumorMessage
  dsimp only
  rw [processPayload_err succeeds]
  rfl

theorem entry_storeRumor (n : Node) (rumor : Rumor) (origin : GoString) :
    ({ n with rumorDB := storeRumor n.rumorDB rumor } : Node).entry origin =
      if origin = rumor.origin then
        ⟨n.receivedSeq.get origin,
          (insertRumor ((n.rumorDB.get origin).getD []) rumor).or (n.rumorDB.get origin)⟩
      else n.entry origin := by
  unfold entry
  dsimp only
  split
  · next same =>
    subst same
    unfold storeRumor insertInto
    cases insertRumor ((n.rumorDB.get rumor.origin).getD []) rumor with
    | none => rfl
    | some rumors => simp
  · next other => rw [get_storeRumor_of_ne other]

/-- What trying a rumor does to the entries of a node, whether or not its message is processed. -/
theorem entry_processRumorMessage (n : Node) (c : Nat → LayerChoice) (header : Header)
    (rumor : Rumor) (origin : GoString) :
    (n.processRumorMessage c header rumor).node.entry origin =
      if origin = rumor.origin then
        ⟨n.receivedSeq.get origin,
          (insertRumor ((n.rumorDB.get origin).getD []) rumor).or (n.rumorDB.get origin)⟩
      else n.entry origin := by
  obtain ⟨-, receivedSeq, rumorDB⟩ := processPayload_frame
    { n with rumorDB := storeRumor n.rumorDB rumor } c header 0 rumor.msg
  rw [← entry_storeRumor]
  unfold entry processRumorMessage
  dsimp only
  rw [receivedSeq, rumorDB]

/-- A rumor that is the next of its origin, processed and accepted. -/
theorem entry_accept {n : Node} {rumor : Rumor} (c : Nat → LayerChoice) (header : Header)
    (next : rumor.sequence = n.lastSeq rumor.origin + 1) (origin : GoString) :
    ((n.processRumorMessage c header rumor).node.acceptRumor header rumor).entry origin =
      if origin = rumor.origin then (n.entry origin).take rumor else n.entry origin := by
  have tried := n.entry_processRumorMessage c header rumor origin
  obtain ⟨-, rumorDB⟩ := acceptRumor_frame (n.processRumorMessage c header rumor).node header rumor
  have stored := congrArg Entry.stored tried
  have last := congrArg Entry.last tried
  unfold entry at stored last ⊢
  dsimp only at stored last
  rw [receivedSeq_acceptRumor, rumorDB, stored, FinMap.get_add, last]
  split
  · next same =>
    subst same
    exact (Entry.take_next (e := n.entry rumor.origin) next).symm
  · rfl

/-- The first rumor of a message, when it is not the next of its origin. -/
theorem rumorLoop_skip {n : Node} {c : RumorChoice} {header : Header} {rumor : Rumor} {i : Nat}
    (skipped : rumor.sequence ≠ n.lastSeq rumor.origin + 1) (rumors : List Rumor) :
    rumorLoop c header i n (rumor :: rumors) = rumorLoop c header (i + 1) n rumors := by
  conv_lhs => unfold rumorLoop
  exact if_neg skipped

/-- The first rumor of a message, when it is the next of its origin and nothing fails. -/
theorem rumorLoop_accept {n : Node} {c : RumorChoice} (header : Header) {rumor : Rumor} {i : Nat}
    (succeeds : c.SucceedsAt i) (next : rumor.sequence = n.lastSeq rumor.origin + 1)
    (rumors : List Rumor) :
    let n' := (n.processRumorMessage (c.embedded i) header rumor).node.acceptRumor header rumor
    (rumorLoop c header i n (rumor :: rumors)).1.node =
        (rumorLoop c header (i + 1) n' rumors).1.node ∧
      (rumorLoop c header i n (rumor :: rumors)).1.executed =
        (n.processRumorMessage (c.embedded i) header rumor).executed.map
            (Execution.within i rumor) ++
          (rumorLoop c header (i + 1) n' rumors).1.executed := by
  have acked : ∀ n : Node, n.sendAckMessage (c.ack i) header = .ok (header.source,
      n.packet (c.ack i) header.source
        (.payload (.ack header.packetID n.createStatusMessage))) := by
    intro n
    unfold sendAckMessage
    rw [succeeds.2.1, succeeds.2.2]
  unfold lastSeq at next
  constructor
  · conv_lhs => unfold rumorLoop
    rw [if_pos next]
    dsimp only
    rw [processRumorMessage_err succeeds.1]
    dsimp only
    rw [acked]
  · conv_lhs => unfold rumorLoop
    rw [if_pos next]
    dsimp only
    rw [processRumorMessage_err succeeds.1]
    dsimp only
    rw [acked]

/-- When nothing fails, the message of a rumor does not fail when it is executed. -/
theorem executed_rumorLoop_err {c : RumorChoice} {header : Header} {rumors : List Rumor} {i : Nat}
    {n : Node} {e : Execution} (succeeds : ∀ j, c.SucceedsAt j)
    (mem : e ∈ (rumorLoop c header i n rumors).1.executed) (outer : e.depth = 0) :
    e.err = none := by
  obtain ⟨j, rumor, -, n', -, -, tried⟩ := mem_executed_rumorLoop mem
  exact ((mem_executed_processRumorMessage tried).2 outer).2.mpr
    (processRumorMessage_err (succeeds j).1 rumor)

/-- **A message, one origin at a time.**  When nothing fails, the rumors of an origin are taken in
their order, each if it is the next, and those taken are processed. -/
theorem rumorLoop_entry {c : RumorChoice} {header : Header} {rumors : List Rumor} {i : Nat}
    {n : Node} (succeeds : ∀ j, i ≤ j → j < i + rumors.length → c.SucceedsAt j)
    (origin : GoString) :
    (rumorLoop c header i n rumors).1.node.entry origin =
        (ofOrigin origin rumors).foldl Entry.take (n.entry origin) ∧
      ofOrigin origin (processedRumors (rumorLoop c header i n rumors).1.executed) =
        Entry.taken (n.lastSeq origin) (ofOrigin origin rumors) := by
  induction rumors generalizing i n with
  | nil => exact ⟨rfl, rfl⟩
  | cons rumor rumors ih =>
      rw [List.length_cons] at succeeds
      have here : c.SucceedsAt i := succeeds i le_rfl (by omega)
      have later : ∀ j, i + 1 ≤ j → j < i + 1 + rumors.length → c.SucceedsAt j := by
        intro j lower upper
        exact succeeds j (by omega) (by omega)
      by_cases next : rumor.sequence = n.lastSeq rumor.origin + 1
      · obtain ⟨looped, executed⟩ := rumorLoop_accept header here next rumors
        have processed := n.processedRumors_processRumorMessage (c.embedded i) header i rumor
        rw [if_pos (processRumorMessage_err here.1 rumor)] at processed
        have accepted := entry_accept (c.embedded i) header next origin
        obtain ⟨entries, taken⟩ := ih later
          (n := (n.processRumorMessage (c.embedded i) header rumor).node.acceptRumor header rumor)
        rw [lastSeq_eq_entry, accepted] at taken
        rw [looped, executed, processedRumors_append, processed, entries, accepted,
          List.singleton_append]
        by_cases same : origin = rumor.origin
        · subst same
          rw [if_pos rfl] at taken ⊢
          rw [ofOrigin_cons_self, ofOrigin_cons_self, taken]
          refine ⟨rfl, ?_⟩
          conv_rhs => unfold Entry.taken
          rw [if_pos next, Entry.take_next next, Option.getD_some]
        · rw [if_neg same] at taken ⊢
          rw [ofOrigin_cons_of_ne (Ne.symm same), ofOrigin_cons_of_ne (Ne.symm same), taken]
          exact ⟨rfl, rfl⟩
      · obtain ⟨entries, taken⟩ := ih (n := n) later
        rw [rumorLoop_skip next, entries, taken]
        by_cases same : origin = rumor.origin
        · subst same
          rw [ofOrigin_cons_self, List.foldl_cons, Entry.take_skip next]
          refine ⟨rfl, ?_⟩
          conv_rhs => unfold Entry.taken
          rw [if_neg next]
        · rw [ofOrigin_cons_of_ne (Ne.symm same)]
          exact ⟨rfl, rfl⟩

/-- Forwarding a message changes no entry. -/
theorem handleRumor_node_entry (n : Node) (c : RumorChoice) (header : Header) (rumors : List Rumor)
    (origin : GoString) :
    (n.handleRumor c header rumors).node.entry origin =
      (rumorLoop c header 0 n rumors).1.node.entry origin := by
  unfold handleRumor
  dsimp only
  split
  · unfold forwardRumorsMessage
    dsimp only
    split
    · rfl
    · split <;> rfl
  · rfl

/-- Handling a message of rumors, forwarding included. -/
theorem handleRumor_entry {c : RumorChoice} {header : Header} {rumors : List Rumor} {n : Node}
    (succeeds : ∀ i, c.SucceedsAt i) (origin : GoString) :
    (n.handleRumor c header rumors).node.entry origin =
      (ofOrigin origin rumors).foldl Entry.take (n.entry origin) := by
  rw [← (rumorLoop_entry (fun j _ _ => succeeds j) origin).1, handleRumor_node_entry]

/-! ## What the other node is sent -/

/-- The rumors of every origin in the database have the numbers from 1 on, at least as far as the
view goes. -/
structure Complete (n : Node) : Prop where
  held : Holds (fun _ => True) n.rumorDB
  stored : ∀ origin, ∃ k, n.storedNumbers origin = List.range' 1 k ∧ n.lastSeq origin ≤ k

theorem rumorsBetween_range' {rumors : List Rumor} {s m : Nat} (startSeq endSeq : Nat)
    (numbers : rumors.map Rumor.sequence = List.range' s m) :
    (rumorsBetween startSeq endSeq rumors).map Rumor.sequence =
      List.range' (max s startSeq) (min (s + m) (endSeq + 1) - max s startSeq) := by
  induction rumors generalizing s m with
  | nil =>
      have empty : m = 0 := by
        cases m with
        | zero => rfl
        | succ m => cases numbers
      have none : min (s + m) (endSeq + 1) - max s startSeq = 0 := by omega
      rw [none]
      rfl
  | cons rumor rumors ih =>
      cases m with
      | zero => cases numbers
      | succ m =>
          rw [List.map_cons, List.range'_succ] at numbers
          obtain ⟨number, rest⟩ := List.cons.inj numbers
          have later := ih rest
          unfold rumorsBetween
          split
          · next below =>
            have first : max s startSeq = max (s + 1) startSeq := by omega
            have length : s + (m + 1) = s + 1 + m := by omega
            rw [later, first, length]
          · next reached =>
            split
            · next beyond =>
              have none : min (s + (m + 1)) (endSeq + 1) - max s startSeq = 0 := by omega
              rw [none]
              rfl
            · have first : max s startSeq = s := by omega
              have first' : max (s + 1) startSeq = s + 1 := by omega
              have length : min (s + (m + 1)) (endSeq + 1) - s =
                  min (s + 1 + m) (endSeq + 1) - (s + 1) + 1 := by omega
              rw [List.map_cons, later, first, first', length, List.range'_succ, number]

/-- The rumors that the other node misses have the numbers after its own view. -/
theorem Complete.missingRumors {n : Node} (complete : n.Complete) (view : StatusMessage)
    (origin : GoString) :
    (n.missingRumors view origin).map Rumor.sequence =
      List.range' ((view.get origin).getD 0 + 1) (n.lastSeq origin - (view.get origin).getD 0) := by
  obtain ⟨k, numbers, reaches⟩ := complete.stored origin
  unfold storedNumbers at numbers
  unfold Node.missingRumors getMissingRumors
  cases found : n.rumorDB.get origin with
  | none =>
      rw [found] at numbers
      have none : n.lastSeq origin - (view.get origin).getD 0 = 0 := by
        cases k with
        | zero => omega
        | succ k => cases numbers
      rw [none]
      rfl
  | some rumors =>
      rw [found] at numbers
      have between := rumorsBetween_range' ((view.get origin).getD 0 + 1) (n.lastSeq origin) numbers
      have first : max 1 ((view.get origin).getD 0 + 1) = (view.get origin).getD 0 + 1 := by omega
      have length : min (1 + k) (n.lastSeq origin + 1) - ((view.get origin).getD 0 + 1) =
          n.lastSeq origin - (view.get origin).getD 0 := by omega
      rw [first, length] at between
      exact between

/-- Of rumors listed by origin, those of one origin. -/
theorem ofOrigin_flatten {missing : FinMap GoString (List Rumor)} {origins : List GoString}
    (nodup : origins.Nodup)
    (listed : ∀ origin rumors, missing.get origin = some rumors → ∀ r ∈ rumors, r.origin = origin)
    (origin : GoString) :
    ofOrigin origin (origins.filterMap missing.get).flatten =
      if origin ∈ origins then (missing.get origin).getD [] else [] := by
  induction origins with
  | nil => rfl
  | cons o origins ih =>
      obtain ⟨fresh, nodup'⟩ := List.nodup_cons.mp nodup
      have rest := ih nodup'
      unfold ofOrigin at rest ⊢
      cases found : missing.get o with
      | none =>
          rw [List.filterMap_cons_none found, rest]
          by_cases same : origin = o
          · subst same
            simp [found]
          · simp [same]
      | some rumors =>
          rw [List.filterMap_cons_some found, List.flatten_cons, List.filter_append, rest]
          by_cases same : origin = o
          · subst same
            have all : rumors.filter (fun r => r.origin = origin) = rumors :=
              List.filter_eq_self.mpr fun r mem => decide_eq_true (listed origin rumors found r mem)
            simp [found, fresh, all]
          · have none : rumors.filter (fun r => r.origin = origin) = [] :=
              List.filter_eq_nil_iff.mpr fun r mem here =>
                same ((of_decide_eq_true here).symm.trans (listed o rumors found r mem))
            simp [same, none]

theorem ofOrigin_values (order : FinMap.RangeOrder GoString (List Rumor))
    {missing : FinMap GoString (List Rumor)}
    (listed : ∀ origin rumors, missing.get origin = some rumors → ∀ r ∈ rumors, r.origin = origin)
    (origin : GoString) :
    ofOrigin origin (FinMap.values order missing).flatten = (missing.get origin).getD [] := by
  unfold FinMap.values
  rw [ofOrigin_flatten (order.nodup missing) listed]
  split
  · rfl
  · next absent =>
    rw [order.mem, ← FinMap.get_eq_none] at absent
    rw [absent]
    rfl

/-- The packet carries a message of rumors. -/
def hasRumors (p : Sent) : Bool :=
  match p.2.msg with
  | .rumors _ => true
  | .payload _ => false

/-- The node `a` handles a status, and `b` handles the message of rumors that `a` sends on it, if it
sends one: `b` afterwards, and the messages that it has executed. -/
def exchange (a : Node) (c : StatusChoice) (header : Header) (status : StatusMessage) (b : Node)
    (c' : PacketChoice) : Node × List Execution :=
  match (a.handleStatusMessage c header status).find? hasRumors with
  | none => (b, [])
  | some p => (b.react (.packet c' p.2), b.executedOn (.packet c' p.2))

/-- Statuses carry no rumors. -/
theorem SendsStatus.find? {n : Node} {statuses : List Sent} (views : n.SendsStatus statuses)
    (sent : List Sent) : (statuses ++ sent).find? hasRumors = sent.find? hasRumors := by
  rw [List.find?_append, List.find?_eq_none.mpr, Option.none_or]
  intro p mem
  obtain ⟨c, packet⟩ := views p mem
  unfold hasRumors
  rw [packet]
  exact Bool.false_ne_true

/-- A node receives a packet of rumors. -/
theorem receive_rumors (n : Node) (c : PacketChoice) (pkt : Packet) {rumors : List Rumor}
    (arrived : pkt.header.destination = n.address) (msg : pkt.msg = .rumors rumors) :
    n.react (.packet c pkt) = (n.handleRumor c.rumor pkt.header rumors).node ∧
      n.executedOn (.packet c pkt) = (rumorLoop c.rumor pkt.header 0 n rumors).1.executed := by
  simp only [react, executedOn, handleIncomingPacket, arrived, if_true, msg]
  exact ⟨trivial, n.handleRumor_executed c.rumor pkt.header rumors⟩

section Exchange

variable {a b : Node} {c : StatusChoice} {header : Header} {status : StatusMessage}
  {c' : PacketChoice}

/-- What the exchange does to the receiver, for one origin: it takes the rumors of the origin that
the sender has listed. -/
theorem exchange_entry (a : Node) (status : StatusMessage) (source : header.source = b.address)
    (sends : c.missing.marshalError = none ∧ c.missing.sendError = none)
    (succeeds : ∀ i, c'.rumor.SucceedsAt i) (origin : GoString) :
    let rumors := (FinMap.values c.missingOrder (a.compareViews c status).2).flatten
    (exchange a c header status b c').1.entry origin =
        (ofOrigin origin rumors).foldl Entry.take (b.entry origin) ∧
      ofOrigin origin (processedRumors (exchange a c header status b c').2) =
        Entry.taken (b.lastSeq origin) (ofOrigin origin rumors) ∧
      (∀ e ∈ (exchange a c header status b c').2, e.OfRumor ∧ (e.depth = 0 → e.err = none)) := by
  intro rumors
  obtain ⟨statuses, views, sent⟩ := a.handleStatusMessage_sends c header status
  cases listed : rumors with
  | nil =>
      have silent : a.sendMissingRumors c header.source (a.compareViews c status).2 = [] := by
        unfold sendMissingRumors
        rw [show (FinMap.values c.missingOrder (a.compareViews c status).2).flatten = []
          from listed]
      unfold exchange
      rw [sent, views.find?, silent]
      exact ⟨rfl, rfl, fun e mem => by cases mem⟩
  | cons rumor rest =>
      have handed : a.sendMissingRumors c header.source (a.compareViews c status).2 =
          [(header.source, a.packet c.missing header.source (.rumors (rumor :: rest)))] := by
        unfold sendMissingRumors transmit
        rw [show (FinMap.values c.missingOrder (a.compareViews c status).2).flatten =
          rumor :: rest from listed, sends.1, sends.2]
      obtain ⟨node, executed⟩ := b.receive_rumors c'
        (a.packet c.missing header.source (.rumors (rumor :: rest))) source rfl
      unfold exchange
      rw [sent, views.find?, handed]
      dsimp only [List.find?_cons, hasRumors, packet]
      unfold packet at node executed
      rw [node, executed, handleRumor_entry succeeds]
      exact ⟨rfl, (rumorLoop_entry (fun j _ _ => succeeds j) origin).2, fun e mem =>
        ⟨ofRumor_rumorLoop mem, executed_rumorLoop_err succeeds mem⟩⟩

/-- **One exchange closes the gap.**  When `a` holds the rumors of its view, and `b` has seen at
least what the status says, then after the exchange `b` has seen what either has, and it has
executed the message of each rumor that is new to it once, in order: what it has executed on a rumor
is the rumor's own message, none of these calls fails, and the rumors have the new numbers. -/
theorem exchange_closes_gap (a b : Node) (c : StatusChoice) (header : Header)
    (status : StatusMessage) (c' : PacketChoice) (complete : a.Complete)
    (behind : ∀ origin, (status.get origin).getD 0 ≤ b.lastSeq origin)
    (source : header.source = b.address)
    (sends : c.missing.marshalError = none ∧ c.missing.sendError = none)
    (succeeds : ∀ i, c'.rumor.SucceedsAt i) (origin : GoString) :
    (exchange a c header status b c').1.lastSeq origin =
        max (b.lastSeq origin) (a.lastSeq origin) ∧
      (∀ e ∈ (exchange a c header status b c').2, e.OfRumor ∧ (e.depth = 0 → e.err = none)) ∧
      (ofOrigin origin (processedRumors (exchange a c header status b c').2)).map Rumor.sequence =
        List.range' (b.lastSeq origin + 1) (a.lastSeq origin - b.lastSeq origin) := by
  obtain ⟨entries, processed, executed⟩ := exchange_entry a status source sends succeeds origin
  have seen := behind origin
  have listed : ∀ o rumors, (a.compareViews c status).2.get o = some rumors →
      ∀ r ∈ rumors, r.origin = o := by
    intro o rumors found r mem
    rw [compareViews_get] at found
    split at found
    · cases found
      unfold missingRumors getMissingRumors at mem
      split at mem
      · cases mem
      · next stored here => exact (complete.held o stored here r (mem_of_mem_rumorsBetween mem)).1
    · cases found
  rw [ofOrigin_values c.missingOrder listed, compareViews_get] at entries processed
  rw [lastSeq_eq_entry, entries, processed]
  by_cases ahead : a.Ahead status origin
  · -- The rumors listed start after the status, and `b` has seen at least as much.
    have numbers := complete.missingRumors status origin
    have more : (status.get origin).getD 0 ≤ a.lastSeq origin := by
      rcases ahead with behind | unknown
      · exact behind.le
      · rw [unknown.1]
        exact Nat.zero_le _
    rw [if_pos ahead, Option.getD_some]
    obtain ⟨last, sequences⟩ := Entry.foldl_take_range' (e := b.entry origin) numbers
      (Nat.succ_le_succ seen)
    have reached :
        (status.get origin).getD 0 + 1 + (a.lastSeq origin - (status.get origin).getD 0) - 1 =
          a.lastSeq origin := by
      omega
    rw [reached] at last sequences
    exact ⟨last, executed, sequences⟩
  · have upToDate : a.lastSeq origin ≤ (status.get origin).getD 0 := by
      by_contra more
      exact ahead (.inl (by omega))
    have nothing : a.lastSeq origin - b.lastSeq origin = 0 := by omega
    have reached : max (b.lastSeq origin) (a.lastSeq origin) = b.lastSeq origin := by omega
    rw [if_neg ahead, nothing, reached]
    exact ⟨rfl, executed, rfl⟩

end Exchange

/-! ## A first rumor -/

/-- A node that has broadcast one message. -/
def sampleOrigin : Node := (newPeer (str "127.0.0.1:1") 0).broadcast (.other (str "chat") [])

theorem sampleOrigin_complete : sampleOrigin.Complete where
  held := by
    have empty : Holds (fun _ => True) (.empty : RumorDB) := by
      intro origin rumors found
      cases found
    exact empty.storeRumor trivial
  stored origin := by
    by_cases own : origin = str "127.0.0.1:1"
    · subst own
      refine ⟨1, ?_, ?_⟩ <;> decide +kernel
    · refine ⟨0, ?_, ?_⟩
      · unfold storedNumbers sampleOrigin broadcast
        dsimp only
        rw [get_storeRumor_of_ne own]
        rfl
      · unfold lastSeq sampleOrigin broadcast
        dsimp only
        rw [FinMap.get_add_of_ne _ _ (k := (newPeer (str "127.0.0.1:1") 0).address) own]
        exact le_rfl

/-- A node that has seen nothing gets the rumor of `sampleOrigin` on its status, and executes its
message. -/
theorem exchange_first_rumor :
    let b := newPeer (str "127.0.0.1:2") 0
    let after := exchange sampleOrigin (sampleLayer none).status
      ⟨str "packet", str "127.0.0.1:2", str "127.0.0.1:2", str "127.0.0.1:1"⟩ .empty b
      (samplePacket none)
    after.1.lastSeq (str "127.0.0.1:1") = 1 ∧ after.2.length = 1 ∧
      (ofOrigin (str "127.0.0.1:1") (processedRumors after.2)).map Rumor.sequence = [1] := by
  intro b after
  have closed := exchange_closes_gap sampleOrigin b (sampleLayer none).status
    ⟨str "packet", str "127.0.0.1:2", str "127.0.0.1:2", str "127.0.0.1:1"⟩ .empty
    (samplePacket none) sampleOrigin_complete (fun _ => Nat.zero_le _) rfl ⟨rfl, rfl⟩
    (fun _ => ⟨fun _ => ⟨rfl, rfl, rfl⟩, rfl, rfl⟩) (str "127.0.0.1:1")
  have ahead : max (b.lastSeq (str "127.0.0.1:1")) (sampleOrigin.lastSeq (str "127.0.0.1:1")) = 1 ∧
      List.range' (b.lastSeq (str "127.0.0.1:1") + 1) (sampleOrigin.lastSeq (str "127.0.0.1:1") -
        b.lastSeq (str "127.0.0.1:1")) = [1] := by decide +kernel
  rw [ahead.1, ahead.2] at closed
  exact ⟨closed.1, by decide +kernel, closed.2.2⟩

end Node

end Peerster.Gossip
