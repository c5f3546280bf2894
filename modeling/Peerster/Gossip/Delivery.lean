import Peerster.Gossip.Views
import Peerster.Lib.Run

/-!
# Delivery in order

`handleRumor` processes a rumor when its number is the next one of its origin, and counts it only
once its embedded message has been processed.  The database is written before, so after a failure it
is one rumor ahead.  `Delivered` is this relation between the rumors whose message has been executed
so far, the view and the database, for every origin but the node itself; it is kept by every
iteration of the loop, at whichever point it returns, and by everything else a node does.
-/

namespace Peerster.Gossip

/-! ## What is executed -/

/-- A call on the message of a rumor, not on one inside it, is on the rumor's own message. -/
def Execution.OfRumor (e : Execution) : Prop :=
  ∀ i rumor, e.rumor = some (i, rumor) → e.depth = 0 → e.msg = rumor.msg

/-- The rumor that a call has processed, with the message that was executed: the call is on the
message of a rumor, not on one inside it, and it returns no error. -/
def Execution.processed (e : Execution) : Option Rumor :=
  match e.rumor with
  | none => none
  | some (_, rumor) => if e.depth = 0 ∧ e.err = none then some { rumor with msg := e.msg } else none

/-- The rumors whose message was executed without an error. -/
def processedRumors (executed : List Execution) : List Rumor :=
  executed.filterMap Execution.processed

@[simp] theorem processedRumors_nil : processedRumors [] = [] := rfl

@[simp] theorem processedRumors_append (executed executed' : List Execution) :
    processedRumors (executed ++ executed') =
      processedRumors executed ++ processedRumors executed' := List.filterMap_append

namespace Node

/-- `ProcessPacket` is called on a message first, and then on messages inside it only. -/
theorem processPayload_executed (n : Node) (c : Nat → LayerChoice) (header : Header) (depth : Nat)
    (msg : Payload) :
    ∃ inside, (n.processPayload c header depth msg).executed =
        ⟨none, depth, msg, (n.processPayload c header depth msg).err⟩ :: inside ∧
      ∀ e ∈ inside, e.rumor = none ∧ depth < e.depth := by
  induction msg generalizing depth with
  | status view => exact ⟨[], rfl, fun e mem => by cases mem⟩
  | ack ackedPacketID view =>
      refine ⟨_, rfl, fun e mem => ?_⟩
      unfold handleAckMessage at mem
      dsimp only at mem
      split at mem
      · cases mem
      · rw [notified_executed] at mem
        cases List.mem_singleton.mp mem
        exact ⟨rfl, Nat.lt_succ_self depth⟩
  | privateMessage recipients msg ih =>
      unfold processPayload
      split
      · obtain ⟨inside, executed, deeper⟩ := ih (depth + 1)
        refine ⟨_, rfl, fun e mem => ?_⟩
        dsimp only at mem
        rw [executed] at mem
        rcases List.mem_cons.mp mem with rfl | mem
        · exact ⟨rfl, Nat.lt_succ_self depth⟩
        · exact ⟨(deeper e mem).1, (Nat.lt_succ_self depth).trans (deeper e mem).2⟩
      · exact ⟨[], rfl, fun e mem => by cases mem⟩
  | other type content => exact ⟨[], rfl, fun e mem => by cases mem⟩

/-- What is executed on a rumor: its own message, which decides whether the rumor fails, and then
messages inside it. -/
theorem processRumorMessage_executed (n : Node) (c : Nat → LayerChoice) (header : Header) (i : Nat)
    (rumor : Rumor) :
    ∃ err inside, (n.processRumorMessage c header rumor).executed.map (Execution.within i rumor) =
        ⟨some (i, rumor), 0, rumor.msg, err⟩ :: inside ∧
      (err = none ↔ (n.processRumorMessage c header rumor).err = none) ∧
      ∀ e ∈ inside, e.rumor = some (i, rumor) ∧ e.depth ≠ 0 := by
  obtain ⟨inside, executed, deeper⟩ := processPayload_executed
    { n with rumorDB := storeRumor n.rumorDB rumor } c header 0 rumor.msg
  unfold processRumorMessage
  dsimp only
  rw [executed]
  refine ⟨_, inside.map (Execution.within i rumor), rfl, Option.map_eq_none_iff.symm,
    fun e mem => ?_⟩
  obtain ⟨e', mem', rfl⟩ := List.mem_map.mp mem
  obtain ⟨free, deep⟩ := deeper e' mem'
  refine ⟨?_, Nat.ne_of_gt deep⟩
  unfold Execution.within
  dsimp only
  rw [free, Option.none_or]

/-- What is read off the calls on the messages of rumors is read off one call for each rumor that is
tried. -/
theorem filterMap_processRumorMessage {α : Type*} {f : Execution → Option α}
    (outermost : ∀ e, e.depth ≠ 0 → f e = none) (n : Node) (c : Nat → LayerChoice)
    (header : Header) (i : Nat) (rumor : Rumor) :
    ∃ err, ((n.processRumorMessage c header rumor).executed.map
          (Execution.within i rumor)).filterMap f =
        (f ⟨some (i, rumor), 0, rumor.msg, err⟩).toList ∧
      (err = none ↔ (n.processRumorMessage c header rumor).err = none) := by
  obtain ⟨err, inside, executed, fails, deeper⟩ := n.processRumorMessage_executed c header i rumor
  have none : inside.filterMap f = [] :=
    List.filterMap_eq_nil_iff.mpr fun e mem => outermost e (deeper e mem).2
  refine ⟨err, ?_, fails⟩
  rw [executed, List.filterMap_cons, none]
  cases f ⟨some (i, rumor), 0, rumor.msg, err⟩ <;> rfl

/-- A rumor that is tried is processed if its message does not fail. -/
theorem processedRumors_processRumorMessage (n : Node) (c : Nat → LayerChoice) (header : Header)
    (i : Nat) (rumor : Rumor) :
    processedRumors ((n.processRumorMessage c header rumor).executed.map
        (Execution.within i rumor)) =
      if (n.processRumorMessage c header rumor).err = none then [rumor] else [] := by
  have outermost : ∀ e : Execution, e.depth ≠ 0 → e.processed = none := by
    intro e deeper
    unfold Execution.processed
    split
    · rfl
    · exact if_neg fun outer => deeper outer.1
  obtain ⟨err, processed, fails⟩ := n.filterMap_processRumorMessage outermost c header i rumor
  unfold processedRumors
  rw [processed]
  unfold Execution.processed
  dsimp only
  by_cases fine : err = none
  · rw [if_pos ⟨rfl, fine⟩, if_pos (fails.mp fine)]
    rfl
  · rw [if_neg fun both => fine both.2, if_neg fun none => fine (fails.mpr none)]
    rfl

/-- What is executed on a rumor belongs to it, and is its own message, which decides whether the
rumor fails, or inside it. -/
theorem mem_executed_processRumorMessage {n : Node} {c : Nat → LayerChoice} {header : Header}
    {i : Nat} {rumor : Rumor} {e : Execution}
    (mem : e ∈ (n.processRumorMessage c header rumor).executed.map (Execution.within i rumor)) :
    e.rumor = some (i, rumor) ∧ (e.depth = 0 → e.msg = rumor.msg ∧
      (e.err = none ↔ (n.processRumorMessage c header rumor).err = none)) := by
  obtain ⟨err, inside, executed, fails, deeper⟩ := n.processRumorMessage_executed c header i rumor
  rw [executed] at mem
  rcases List.mem_cons.mp mem with rfl | mem
  · exact ⟨rfl, fun _ => ⟨rfl, fails⟩⟩
  · exact ⟨(deeper e mem).1, fun outer => ((deeper e mem).2 outer).elim⟩

/-- Forwarding a message executes nothing. -/
theorem handleRumor_executed (n : Node) (c : RumorChoice) (header : Header) (rumors : List Rumor) :
    (n.handleRumor c header rumors).executed = (rumorLoop c header 0 n rumors).1.executed := by
  unfold handleRumor
  dsimp only
  split <;> rfl

/-- The messages of packets without rumors belong to no rumor. -/
theorem rumor_processPayload {n : Node} {c : Nat → LayerChoice} {header : Header} {depth : Nat}
    {msg : Payload} {e : Execution}
    (mem : e ∈ (n.processPayload c header depth msg).executed) : e.rumor = none := by
  obtain ⟨inside, executed, deeper⟩ := n.processPayload_executed c header depth msg
  rw [executed] at mem
  rcases List.mem_cons.mp mem with rfl | mem
  · rfl
  · exact (deeper e mem).1

/-- A packet that is not one of rumors processes none. -/
theorem processedRumors_processPayload (n : Node) (c : Nat → LayerChoice) (header : Header)
    (depth : Nat) (msg : Payload) :
    processedRumors (n.processPayload c header depth msg).executed = [] := by
  refine List.filterMap_eq_nil_iff.mpr fun e mem => ?_
  unfold Execution.processed
  rw [rumor_processPayload mem]

end Node

/-- Something that happens at a node: a step of its own, or a packet that it receives. -/
inductive Input : Type
  | own (e : Event)
  | packet (c : PacketChoice) (pkt : Packet)

namespace Node

/-- The node after an input. -/
def react (n : Node) : Input → Node
  | .own e => (n.step e).1
  | .packet c pkt => (n.handleIncomingPacket c pkt).node

/-- The messages that are executed on an input. -/
def executedOn (n : Node) : Input → List Execution
  | .own _ => []
  | .packet c pkt => (n.handleIncomingPacket c pkt).executed

/-- The numbers of an origin in the database, in its order. -/
def storedNumbers (n : Node) (origin : GoString) : List Nat :=
  ((n.rumorDB.get origin).getD []).map Rumor.sequence

/-- What the rumors `log` of one origin processed so far, the view and the database have to do with
each other. -/
structure Delivered (address : GoString) (log : List Rumor) (n : Node) : Prop where
  self : n.address = address
  processed : ∀ origin, origin ≠ address →
    (log.filter fun r => r.origin = origin).map Rumor.sequence =
      List.range' 1 (n.lastSeq origin)
  stored : ∀ origin, origin ≠ address → ∃ k, n.storedNumbers origin = List.range' 1 k ∧
    n.lastSeq origin ≤ k ∧ k ≤ n.lastSeq origin + 1

section Delivered

variable {address : GoString} {log : List Rumor} {n n' : Node}

/-- Fields other than the view and the database may change freely. -/
theorem Delivered.of_same (delivered : Delivered address log n) (same : n'.address = n.address)
    (receivedSeq : n'.receivedSeq = n.receivedSeq) (rumorDB : n'.rumorDB = n.rumorDB) :
    Delivered address log n' := by
  have seq : n'.lastSeq = n.lastSeq := by
    unfold lastSeq
    rw [receivedSeq]
  have numbers : n'.storedNumbers = n.storedNumbers := by
    unfold storedNumbers
    rw [rumorDB]
  refine ⟨same.trans delivered.self, ?_, ?_⟩
  · rw [seq]
    exact delivered.processed
  · rw [seq, numbers]
    exact delivered.stored

/-! ## Storing a rumor -/

theorem ordered_of_numbers {rumors : List Rumor} {k : Nat}
    (numbers : rumors.map Rumor.sequence = List.range' 1 k) : Ordered rumors := by
  have increasing : (rumors.map Rumor.sequence).Pairwise (· < ·) := by
    rw [numbers]
    exact List.pairwise_lt_range'
  exact List.pairwise_map.mp increasing

theorem le_of_numbers {rumors : List Rumor} {k : Nat}
    (numbers : rumors.map Rumor.sequence = List.range' 1 k) {r : Rumor} (mem : r ∈ rumors) :
    r.sequence ≤ k := by
  have inside : r.sequence ∈ List.range' 1 k := by
    rw [← numbers]
    exact List.mem_map_of_mem mem
  rw [List.mem_range'_1] at inside
  omega

/-- Storing the rumor after the first `s` of an origin, of which the database may already hold it:
the database holds the first `s + 1`. -/
theorem numbers_storeRumor {rumorDB : RumorDB} {rumor : Rumor} {s k : Nat}
    (next : rumor.sequence = s + 1)
    (numbers : ((rumorDB.get rumor.origin).getD []).map Rumor.sequence = List.range' 1 k)
    (lower : s ≤ k) (upper : k ≤ s + 1) :
    (((storeRumor rumorDB rumor).get rumor.origin).getD []).map Rumor.sequence =
      List.range' 1 (s + 1) := by
  have ordered := ordered_of_numbers numbers
  have bound := fun r mem => le_of_numbers (r := r) numbers mem
  unfold storeRumor insertInto
  rcases Nat.eq_or_lt_of_le lower with rfl | above
  · have largest : ∀ r ∈ (rumorDB.get rumor.origin).getD [], r.sequence < rumor.sequence := by
      intro r mem
      have le := bound r mem
      omega
    rw [insertRumor_append ordered largest]
    simp only [FinMap.get_add_self, Option.getD_some, List.map_append, List.map_singleton, numbers,
      next]
    rw [List.range'_concat, Nat.one_mul, Nat.add_comm 1 s]
  · have full : k = s + 1 := by omega
    subst full
    have last : s + 1 ∈ ((rumorDB.get rumor.origin).getD []).map Rumor.sequence := by
      rw [numbers, List.mem_range'_1]
      omega
    obtain ⟨r, mem, same⟩ := List.mem_map.mp last
    rw [insertRumor_present ordered mem (same.trans next.symm)]
    exact numbers

theorem get_storeRumor_of_ne {rumorDB : RumorDB} {rumor : Rumor} {origin : GoString}
    (other : origin ≠ rumor.origin) :
    (storeRumor rumorDB rumor).get origin = rumorDB.get origin := by
  unfold storeRumor insertInto
  split
  · rfl
  · exact FinMap.get_add_of_ne _ _ other

/-- After an expected rumor has been stored, the database is at most one ahead, and it is at the
rumor's own number. -/
theorem Delivered.store (delivered : Delivered address log n) {rumor : Rumor}
    (next : rumor.sequence = n.lastSeq rumor.origin + 1) :
    Delivered address log { n with rumorDB := storeRumor n.rumorDB rumor } ∧
      (rumor.origin ≠ address →
        ({ n with rumorDB := storeRumor n.rumorDB rumor } : Node).storedNumbers rumor.origin =
          List.range' 1 rumor.sequence) := by
  have here : rumor.origin ≠ address →
      ({ n with rumorDB := storeRumor n.rumorDB rumor } : Node).storedNumbers rumor.origin =
        List.range' 1 rumor.sequence := by
    intro foreign
    obtain ⟨k, numbers, lower, upper⟩ := delivered.stored rumor.origin foreign
    rw [next]
    exact numbers_storeRumor next numbers lower upper
  refine ⟨⟨delivered.self, delivered.processed, fun origin foreign => ?_⟩, here⟩
  by_cases same : origin = rumor.origin
  · subst same
    refine ⟨rumor.sequence, here foreign, ?_⟩
    have seq : ({ n with rumorDB := storeRumor n.rumorDB rumor } : Node).lastSeq rumor.origin =
        n.lastSeq rumor.origin := rfl
    omega
  · obtain ⟨k, numbers, bounds⟩ := delivered.stored origin foreign
    refine ⟨k, ?_, bounds⟩
    unfold storedNumbers at numbers ⊢
    rw [get_storeRumor_of_ne same]
    exact numbers

/-! ## Counting a rumor -/

theorem receivedSeq_acceptRumor (n : Node) (header : Header) (rumor : Rumor) :
    (n.acceptRumor header rumor).receivedSeq =
      n.receivedSeq.add rumor.origin rumor.sequence := by
  unfold acceptRumor
  dsimp only
  split
  · unfold setRoutingEntry
    split <;> rfl
  · rfl

theorem lastSeq_acceptRumor (n : Node) (header : Header) (rumor : Rumor) (origin : GoString) :
    (n.acceptRumor header rumor).lastSeq origin =
      if origin = rumor.origin then rumor.sequence else n.lastSeq origin := by
  unfold lastSeq
  rw [receivedSeq_acceptRumor, FinMap.get_add]
  split <;> rfl

theorem acceptRumor_frame (n : Node) (header : Header) (rumor : Rumor) :
    (n.acceptRumor header rumor).address = n.address ∧
      (n.acceptRumor header rumor).rumorDB = n.rumorDB := by
  unfold acceptRumor
  dsimp only
  split
  · unfold setRoutingEntry
    split <;> exact ⟨rfl, rfl⟩
  · exact ⟨rfl, rfl⟩

/-- An expected rumor that has been stored and processed is counted. -/
theorem Delivered.accept (delivered : Delivered address log n) (header : Header) {rumor : Rumor}
    (next : rumor.sequence = n.lastSeq rumor.origin + 1)
    (stored : rumor.origin ≠ address →
      n.storedNumbers rumor.origin = List.range' 1 rumor.sequence) :
    Delivered address (log ++ [rumor]) (n.acceptRumor header rumor) := by
  obtain ⟨same, rumorDB⟩ := acceptRumor_frame n header rumor
  have numbers : (n.acceptRumor header rumor).storedNumbers = n.storedNumbers := by
    unfold storedNumbers
    rw [rumorDB]
  refine ⟨same.trans delivered.self, fun origin foreign => ?_, fun origin foreign => ?_⟩
  · rw [lastSeq_acceptRumor, List.filter_append, List.map_append,
      delivered.processed origin foreign]
    split
    · next here =>
      subst here
      simp only [List.filter_cons, decide_true, if_true, List.filter_nil, List.map_singleton, next]
      rw [List.range'_concat, Nat.one_mul, Nat.add_comm 1]
    · next other =>
      have apart : ¬ rumor.origin = origin := fun same => other same.symm
      simp [apart]
  · rw [numbers, lastSeq_acceptRumor]
    split
    · next here =>
      subst here
      exact ⟨rumor.sequence, stored foreign, le_rfl, Nat.le_succ _⟩
    · exact delivered.stored origin foreign

/-! ## Embedded messages -/

/-- A message that carries no rumors touches neither the view nor the database. -/
theorem processPayload_frame (n : Node) (c : Nat → LayerChoice) (header : Header) (depth : Nat)
    (msg : Payload) :
    (n.processPayload c header depth msg).node.address = n.address ∧
      (n.processPayload c header depth msg).node.receivedSeq = n.receivedSeq ∧
      (n.processPayload c header depth msg).node.rumorDB = n.rumorDB := by
  induction msg generalizing depth with
  | status view =>
      rw [processPayload, notified_node]
      exact ⟨rfl, rfl, rfl⟩
  | ack ackedPacketID view =>
      simp only [processPayload, notified_node, handleAckMessage]
      have frame : (n.deliverAck ackedPacketID).address = n.address ∧
          (n.deliverAck ackedPacketID).receivedSeq = n.receivedSeq ∧
          (n.deliverAck ackedPacketID).rumorDB = n.rumorDB := by
        unfold deliverAck
        split <;> exact ⟨rfl, rfl, rfl⟩
      split
      · exact frame
      · rw [notified_node]
        exact frame
  | privateMessage recipients msg ih =>
      simp only [processPayload]
      split
      · rw [notified_node]
        exact ih (depth + 1)
      · rw [notified_node]
        exact ⟨rfl, rfl, rfl⟩
  | other type content =>
      rw [processPayload, notified_node]
      exact ⟨rfl, rfl, rfl⟩

/-- A received rumor that is expected is stored, and what its message does to the node changes
neither the view nor the database. -/
theorem Delivered.process (delivered : Delivered address log n) (c : Nat → LayerChoice)
    (header : Header) {rumor : Rumor} (next : rumor.sequence = n.lastSeq rumor.origin + 1) :
    Delivered address log (n.processRumorMessage c header rumor).node ∧
      rumor.sequence = (n.processRumorMessage c header rumor).node.lastSeq rumor.origin + 1 ∧
      (rumor.origin ≠ address →
        (n.processRumorMessage c header rumor).node.storedNumbers rumor.origin =
          List.range' 1 rumor.sequence) := by
  obtain ⟨stored, numbers⟩ := delivered.store next
  obtain ⟨same, receivedSeq, rumorDB⟩ := processPayload_frame
    { n with rumorDB := storeRumor n.rumorDB rumor } c header 0 rumor.msg
  refine ⟨stored.of_same same receivedSeq rumorDB, ?_, fun foreign => ?_⟩
  · unfold processRumorMessage lastSeq
    dsimp only
    rw [receivedSeq]
    exact next
  · unfold processRumorMessage storedNumbers
    dsimp only
    rw [rumorDB]
    exact numbers foreign

/-- The loop keeps the relation, wherever it returns. -/
theorem Delivered.rumorLoop (c : RumorChoice) (header : Header) (rumors : List Rumor) (i : Nat)
    (delivered : Delivered address log n) :
    Delivered address (log ++ processedRumors (Node.rumorLoop c header i n rumors).1.executed)
      (Node.rumorLoop c header i n rumors).1.node := by
  induction rumors generalizing i n log with
  | nil =>
      unfold Node.rumorLoop
      rw [processedRumors_nil, List.append_nil]
      exact delivered
  | cons rumor rumors ih =>
      unfold Node.rumorLoop
      split
      · next next =>
        obtain ⟨processed, next', numbers⟩ := delivered.process (c.embedded i) header next
        have executed := n.processedRumors_processRumorMessage (c.embedded i) header i rumor
        dsimp only
        cases outcome : (n.processRumorMessage (c.embedded i) header rumor).err with
        | some err =>
            rw [outcome, if_neg (Option.some_ne_none err)] at executed
            dsimp only
            rw [executed, List.append_nil]
            exact processed
        | none =>
            have accepted := processed.accept header next' numbers
            rw [outcome, if_pos rfl] at executed
            dsimp only
            cases Node.sendAckMessage _ (c.ack i) header with
            | error err =>
                dsimp only
                rw [executed]
                exact accepted
            | ok ack =>
                have rest := ih (i + 1) accepted
                dsimp only
                rw [processedRumors_append, executed, ← List.append_assoc]
                exact rest
      · exact ih (i + 1) delivered

theorem Delivered.handleRumor (delivered : Delivered address log n) (c : RumorChoice)
    (header : Header) (rumors : List Rumor) :
    Delivered address (log ++ processedRumors (n.handleRumor c header rumors).executed)
      (n.handleRumor c header rumors).node := by
  have looped := delivered.rumorLoop c header rumors 0
  unfold Node.handleRumor
  dsimp only
  split
  · unfold forwardRumorsMessage
    dsimp only
    split
    · exact looped
    · split <;> exact looped.of_same rfl rfl rfl
  · exact looped

/-! ## Everything else -/

theorem Delivered.addPeer (delivered : Delivered address log n) (addrs : List GoString) :
    Delivered address log (n.addPeer addrs) := by
  induction addrs generalizing n with
  | nil => exact delivered
  | cons a addrs ih =>
      unfold Node.addPeer
      split
      · exact ih (delivered.of_same rfl rfl rfl)
      · exact ih delivered

theorem Delivered.setRoutingEntry (delivered : Delivered address log n)
    (origin relayAddr : GoString) : Delivered address log (n.setRoutingEntry origin relayAddr) := by
  unfold Node.setRoutingEntry
  split <;> exact delivered.of_same rfl rfl rfl

/-- A broadcast concerns the node's own rumors only. -/
theorem Delivered.broadcast (delivered : Delivered address log n) (msg : Payload) :
    Delivered address log (n.broadcast msg) := by
  have seq : ∀ origin, origin ≠ address → (n.broadcast msg).lastSeq origin = n.lastSeq origin := by
    intro origin foreign
    rw [← delivered.self] at foreign
    unfold lastSeq Node.broadcast
    dsimp only
    rw [FinMap.get_add_of_ne _ _ foreign]
  have numbers : ∀ origin, origin ≠ address →
      (n.broadcast msg).storedNumbers origin = n.storedNumbers origin := by
    intro origin foreign
    rw [← delivered.self] at foreign
    unfold storedNumbers Node.broadcast
    dsimp only
    rw [get_storeRumor_of_ne foreign]
  refine ⟨delivered.self, fun origin foreign => ?_, fun origin foreign => ?_⟩
  · rw [seq origin foreign]
    exact delivered.processed origin foreign
  · rw [seq origin foreign, numbers origin foreign]
    exact delivered.stored origin foreign

theorem Delivered.runTask (delivered : Delivered address log n) (i : Nat)
    (neighbor : NeighborChoice) (c : SendChoice) (wakeup : Wakeup) :
    Delivered address log (n.runTask i neighbor c wakeup).1 := by
  unfold Node.runTask
  dsimp only
  split
  · exact delivered
  · unfold Node.broadCastRoutine
    dsimp only
    split
    · exact delivered.of_same rfl rfl rfl
    · split <;> exact delivered.of_same rfl rfl rfl
  · unfold Node.waitForAck
    dsimp only
    split
    · split <;> exact delivered.of_same rfl rfl rfl
    · split
      · split <;> exact delivered.of_same rfl rfl rfl
      · exact delivered.of_same rfl rfl rfl
    · split <;> exact delivered.of_same rfl rfl rfl
    · exact delivered.of_same rfl rfl rfl

/-- Every input keeps the relation, with the rumors it processes added to the log. -/
theorem Delivered.react (delivered : Delivered address log n) (input : Input) :
    Delivered address (log ++ processedRumors (n.executedOn input)) (n.react input) := by
  cases input with
  | own e =>
      simp only [executedOn, Node.react, processedRumors_nil, List.append_nil]
      cases e with
      | addPeer addrs => exact delivered.addPeer addrs
      | setRoutingEntry origin relayAddr => exact delivered.setRoutingEntry origin relayAddr
      | broadcast msg => exact delivered.broadcast msg
      | runTask i neighbor c wakeup => exact delivered.runTask i neighbor c wakeup
      | antiEntropy c => exact delivered
      | sendPayload dest header msg => exact delivered
  | packet c pkt =>
      simp only [executedOn, Node.react, handleIncomingPacket]
      split
      · cases pkt.msg with
        | rumors rumors => exact delivered.handleRumor c.rumor pkt.header rumors
        | payload msg =>
            obtain ⟨same, receivedSeq, rumorDB⟩ :=
              processPayload_frame n c.payload pkt.header 0 msg
            dsimp only
            rw [processedRumors_processPayload, List.append_nil]
            exact delivered.of_same same receivedSeq rumorDB
      · rw [processedRumors_nil, List.append_nil]
        exact delivered

theorem newPeer_delivered (address : GoString) (ackTimeout : Nat) :
    Delivered address [] (newPeer address ackTimeout) where
  self := rfl
  processed _ _ := rfl
  stored _ _ := ⟨0, rfl, le_rfl, Nat.zero_le _⟩

end Delivered

/-! ## What is executed on a message -/

theorem lastSeq_processRumorMessage (n : Node) (c : Nat → LayerChoice) (header : Header)
    (rumor : Rumor) (origin : GoString) :
    (n.processRumorMessage c header rumor).node.lastSeq origin = n.lastSeq origin := by
  obtain ⟨-, receivedSeq, -⟩ := processPayload_frame
    { n with rumorDB := storeRumor n.rumorDB rumor } c header 0 rumor.msg
  unfold lastSeq processRumorMessage
  dsimp only
  rw [receivedSeq]

/-- A rumor that is tried and counted takes no view back. -/
theorem lastSeq_le_accepted {n : Node} (c : Nat → LayerChoice) (header : Header) {rumor : Rumor}
    (next : rumor.sequence = n.lastSeq rumor.origin + 1) (origin : GoString) :
    n.lastSeq origin ≤
      ((n.processRumorMessage c header rumor).node.acceptRumor header rumor).lastSeq origin := by
  rw [lastSeq_acceptRumor]
  split
  · next same =>
    subst same
    omega
  · exact (n.lastSeq_processRumorMessage c header rumor origin).ge

/-- What is executed on a message of rumors is executed on one of them, the next of its origin at
the time; until then views have only grown. -/
theorem mem_executed_rumorLoop {c : RumorChoice} {header : Header} {rumors : List Rumor} {i : Nat}
    {n : Node} {e : Execution} (mem : e ∈ (rumorLoop c header i n rumors).1.executed) :
    ∃ j, ∃ rumor ∈ rumors, ∃ n' : Node, rumor.sequence = n'.lastSeq rumor.origin + 1 ∧
      (∀ origin, n.lastSeq origin ≤ n'.lastSeq origin) ∧
      e ∈ (n'.processRumorMessage (c.embedded j) header rumor).executed.map
        (Execution.within j rumor) := by
  induction rumors generalizing i n with
  | nil => cases mem
  | cons rumor rumors ih =>
      unfold rumorLoop at mem
      split at mem
      · next next =>
        dsimp only at mem
        split at mem
        · exact ⟨i, rumor, List.mem_cons_self, n, next, fun _ => le_rfl, mem⟩
        · split at mem
          · exact ⟨i, rumor, List.mem_cons_self, n, next, fun _ => le_rfl, mem⟩
          · rcases List.mem_append.mp mem with mem | later
            · exact ⟨i, rumor, List.mem_cons_self, n, next, fun _ => le_rfl, mem⟩
            · obtain ⟨j, r, inside, n', here, grows, tried⟩ := ih later
              exact ⟨j, r, List.mem_cons_of_mem rumor inside, n', here, fun origin =>
                (lastSeq_le_accepted (c.embedded i) header next origin).trans (grows origin), tried⟩
      · obtain ⟨j, r, inside, rest⟩ := ih mem
        exact ⟨j, r, List.mem_cons_of_mem rumor inside, rest⟩

/-- What is executed on a rumor is its own message, and messages inside it. -/
theorem ofRumor_rumorLoop {c : RumorChoice} {header : Header} {rumors : List Rumor} {i : Nat}
    {n : Node} {e : Execution} (mem : e ∈ (rumorLoop c header i n rumors).1.executed) :
    e.OfRumor := by
  obtain ⟨j, rumor, -, n', -, -, tried⟩ := mem_executed_rumorLoop mem
  obtain ⟨of, own⟩ := mem_executed_processRumorMessage tried
  intro i' rumor' of' outer
  cases of.symm.trans of'
  exact (own outer).1

theorem executedOn_ofRumor (n : Node) (input : Input) : ∀ e ∈ n.executedOn input, e.OfRumor := by
  intro e mem
  cases input with
  | own _ => cases mem
  | packet c pkt =>
      unfold executedOn handleIncomingPacket at mem
      dsimp only at mem
      split at mem
      · split at mem
        · rw [handleRumor_executed] at mem
          exact ofRumor_rumorLoop mem
        · intro i rumor of
          rw [rumor_processPayload mem] at of
          cases of
      · cases mem

/-- **In-order delivery.**  After every run of a node, for every other origin: what was executed on
a rumor was its own message, the rumors whose message was executed without an error have the numbers
from 1 to the last one seen, each once and in that order, and the numbers in the database are those
up to the last one seen or the one after it. -/
theorem reachable_delivered (address : GoString) (ackTimeout : Nat) (inputs : List Input)
    (origin : GoString) (foreign : origin ≠ address) :
    let n := Run.run react (newPeer address ackTimeout) inputs
    let executed := Run.collect react executedOn (newPeer address ackTimeout) inputs
    let last := (n.receivedSeq.get origin).getD 0
    (∀ e ∈ executed, e.OfRumor) ∧
      ((processedRumors executed).filter fun r => r.origin = origin).map Rumor.sequence =
        List.range' 1 last ∧
      ∃ k, ((n.rumorDB.get origin).getD []).map Rumor.sequence = List.range' 1 k ∧
        last ≤ k ∧ k ≤ last + 1 := by
  have delivered : Delivered address
      (processedRumors (Run.collect react executedOn (newPeer address ackTimeout) inputs))
      (Run.run react (newPeer address ackTimeout) inputs) := by
    refine Run.run_collect_invariant (I := fun executed => Delivered address
      (processedRumors executed)) (newPeer_delivered address ackTimeout) ?_ inputs
    intro executed n input delivered
    rw [processedRumors_append]
    exact delivered.react input
  have own : ∀ e ∈ Run.collect react executedOn (newPeer address ackTimeout) inputs, e.OfRumor :=
    Run.forall_mem_collect executedOn_ofRumor
  exact ⟨own, delivered.processed origin foreign, delivered.stored origin foreign⟩

end Node

/-! ## A retransmission -/

/-- The first neighbor in key order. -/
def sampleNeighbor : NeighborChoice := ⟨.sorted, 0⟩

/-- A handler that returns `err`. -/
def sampleLayer (err : Option GoString) : LayerChoice where
  status := ⟨.sorted, .sorted, sampleNeighbor, false, sampleSend, sampleSend⟩
  marshalError := none
  handled := err
  handlerSends := []
  notifyError := none

/-- Handling a packet whose embedded messages return `err`. -/
def samplePacket (err : Option GoString) : PacketChoice :=
  ⟨sampleSend, fun _ => sampleLayer none,
    ⟨fun _ _ => sampleLayer err, fun _ => sampleSend, sampleNeighbor, sampleSend⟩⟩

/-- A packet of chat messages from `127.0.0.1:2` with the numbers `numbers`, whose handler returns
`err`. -/
def sampleRumors (err : Option GoString) (numbers : List Nat) : Input :=
  .packet ⟨sampleSend, fun _ => sampleLayer none,
      ⟨fun _ _ => sampleLayer err, fun _ => sampleSend, sampleNeighbor, sampleSend⟩⟩
    ⟨⟨str "packet", str "127.0.0.1:2", str "127.0.0.1:2", str "127.0.0.1:1"⟩,
      .rumors (numbers.map fun s => ⟨str "127.0.0.1:2", s, .other (str "chat") []⟩)⟩

/-- The first rumor fails, and arrives again together with the second. -/
def retransmission : List Input :=
  [sampleRumors (some (str "failed")) [1], sampleRumors none [2, 1, 2, 1]]

/-- Of the three messages that are executed the first fails, and the others are processed once and
in order. -/
theorem delivered_retransmission :
    let executed := Run.collect Node.react Node.executedOn (newPeer (str "127.0.0.1:1") 0)
      retransmission
    executed.length = 3 ∧
      ((processedRumors executed).filter fun r => r.origin = str "127.0.0.1:2").map
        Rumor.sequence = List.range' 1 2 := by
  intro executed
  refine ⟨by decide +kernel, ?_⟩
  have delivered := (Node.reachable_delivered (str "127.0.0.1:1") 0 retransmission
    (str "127.0.0.1:2") (by decide +kernel)).2.1
  have last : ((Run.run Node.react (newPeer (str "127.0.0.1:1") 0)
      retransmission).receivedSeq.get (str "127.0.0.1:2")).getD 0 = 2 := by decide +kernel
  rw [last] at delivered
  exact delivered

end Peerster.Gossip
