import Peerster.Gossip.Exchange

/-!
# Rumors within rumors

A rumor may embed a message of rumors, itself or inside private messages.  Then `handleRumor` calls
itself, through `ProcessPacket`, after it has compared the number of the outer rumor with the view
and before it writes the view.  A message of rumors that all embed none is handled as before
(`handleNested_flat`).

The view has two writers, `handleRumor` and `Broadcast`, and neither looks at what it overwrites.  A
write of `handleRumor` goes back when the embedded rumors have overtaken the outer one, and a write
of `Broadcast` goes back when the node has accepted rumors in its own name, as a node does that has
been restarted; the message broadcast is then also dropped, if its number is in the database.
Without these two cases the view only grows and broadcasts are kept (`advances_of_orderly`).
-/

namespace Peerster.Gossip

/-- A message of rumors.  The rumors that the message of a rumor embeds come with it; of a message
that is no message of rumors they are not looked at. -/
inductive Nested : Type
  | nil
  | cons (rumor : Rumor) (embedded rest : Nested)

/-- The message is no message of rumors, also inside private messages. -/
def Payload.plain : Payload → Bool
  | .privateMessage _ msg => msg.plain
  | .other type _ => type ≠ str "rumor"
  | _ => true

namespace Nested

/-- The rumors of the message itself. -/
def rumors : Nested → List Rumor
  | .nil => []
  | .cons rumor _ rest => rumor :: rumors rest

/-- The rumor of an origin with a number is in the message, at some depth. -/
def Contains (origin : GoString) (sequence : Nat) : Nested → Prop
  | .nil => False
  | .cons rumor embedded rest =>
      rumor.origin = origin ∧ rumor.sequence = sequence ∨ Contains origin sequence embedded ∨
        Contains origin sequence rest

/-- No rumor, at any depth, embeds both the rumor with its own number and the one after it. -/
def Orderly : Nested → Prop
  | .nil => True
  | .cons rumor embedded rest =>
      ¬ (embedded.Contains rumor.origin rumor.sequence ∧
          embedded.Contains rumor.origin (rumor.sequence + 1)) ∧
        Orderly embedded ∧ Orderly rest

/-- A message of rumors that embed none. -/
def ofList : List Rumor → Nested
  | [] => .nil
  | rumor :: rumors => .cons rumor .nil (ofList rumors)

end Nested

/-- A write to `receivedSeq`: the number of an origin, and the one it replaces (0 for none). -/
structure Write where
  origin : GoString
  old : Nat
  new : Nat
deriving DecidableEq

/-- A handler in progress: its outcome, and the writes to `receivedSeq` so far. -/
structure Handling where
  outcome : Outcome
  writes : List Write

namespace Node

/-! ## Handling -/

/-- `ProcessPacket` on an embedded message.  `inner` is what handling the embedded rumors comes to,
if it is a message of rumors and meant for this node. -/
def processEmbedded (n : Node) (c : Nat → LayerChoice) (header : Header) (inner : Handling) :
    Nat → Payload → Handling
  | depth, .privateMessage recipients msg =>
      if n.address ∈ recipients then
        let h := processEmbedded n c header inner (depth + 1) msg
        ⟨notified (c depth) depth (.privateMessage recipients msg) { h.outcome with
          err := h.outcome.err.map fun _ => str "Failed to process embedded message" }, h.writes⟩
      else ⟨notified (c depth) depth (.privateMessage recipients msg) ⟨n, [], none, []⟩, []⟩
  | depth, .other type content =>
      if type = str "rumor" then
        ⟨notified (c depth) depth (.other type content) inner.outcome, inner.writes⟩
      else ⟨n.processPayload c header depth (.other type content), []⟩
  | depth, .status view => ⟨n.processPayload c header depth (.status view), []⟩
  | depth, .ack ackedPacketID view =>
      ⟨n.processPayload c header depth (.ack ackedPacketID view), []⟩

/-- The end of `handleRumor`: the message is forwarded when one of its rumors was processed. -/
def finishRumors (c : RumorChoice) (header : Header) (rumors : List Rumor) (o : Outcome)
    (processedRumor : Bool) : Outcome :=
  if o.err = none ∧ processedRumor then
    let forwarded := o.node.forwardRumorsMessage c header rumors
    ⟨forwarded.1, o.sent ++ forwarded.2, none, o.executed⟩
  else o

/-- The loop of `handleRumor` from index `i` on, in the message at the place `path`; choices are
given by place. -/
def nestedLoop (c : List Nat → RumorChoice) (header : Header) :
    List Nat → Nat → Node → Nested → Handling × Bool
  | _, _, n, .nil => (⟨⟨n, [], none, []⟩, []⟩, false)
  | path, i, n, .cons rumor embedded rest =>
      if rumor.sequence = n.lastSeq rumor.origin + 1 then
        let stored := { n with rumorDB := storeRumor n.rumorDB rumor }
        let within := nestedLoop c header (i :: path) 0 stored embedded
        let inner : Handling :=
          ⟨finishRumors (c (i :: path)) header embedded.rumors within.1.outcome within.2,
            within.1.writes⟩
        let h := stored.processEmbedded ((c path).embedded i) header inner 0 rumor.msg
        let executed := h.outcome.executed.map (Execution.within i rumor)
        match h.outcome.err with
        | some err =>
            (⟨⟨h.outcome.node, h.outcome.sent,
              some (str "failed to process embedded message: " ++ err), executed⟩, h.writes⟩, true)
        | none =>
            let write : Write :=
              ⟨rumor.origin, h.outcome.node.lastSeq rumor.origin, rumor.sequence⟩
            let n := h.outcome.node.acceptRumor header rumor
            match n.sendAckMessage ((c path).ack i) header with
            | .error err => (⟨⟨n, h.outcome.sent, some err, executed⟩, h.writes ++ [write]⟩, true)
            | .ok ack =>
                let after := (nestedLoop c header path (i + 1) n rest).1
                (⟨⟨after.outcome.node, h.outcome.sent ++ ack :: after.outcome.sent,
                  after.outcome.err, executed ++ after.outcome.executed⟩,
                  h.writes ++ write :: after.writes⟩, true)
      else nestedLoop c header path (i + 1) n rest

/-- `handleRumor`. -/
def handleNested (n : Node) (c : List Nat → RumorChoice) (header : Header) (message : Nested) :
    Handling :=
  let looped := nestedLoop c header [] 0 n message
  ⟨finishRumors (c []) header message.rumors looped.1.outcome looped.2, looped.1.writes⟩

/-! ## Messages without rumors inside -/

/-- A private message is handled if it is meant for this node. -/
theorem processEmbedded_private (n : Node) (c : Nat → LayerChoice) (header : Header)
    (inner : Handling) (depth : Nat) (recipients : List GoString) (msg : Payload) :
    n.processEmbedded c header inner depth (.privateMessage recipients msg) =
      if n.address ∈ recipients then
        ⟨notified (c depth) depth (.privateMessage recipients msg)
            { (n.processEmbedded c header inner (depth + 1) msg).outcome with
              err := (n.processEmbedded c header inner (depth + 1) msg).outcome.err.map
                fun _ => str "Failed to process embedded message" },
          (n.processEmbedded c header inner (depth + 1) msg).writes⟩
      else ⟨notified (c depth) depth (.privateMessage recipients msg) ⟨n, [], none, []⟩, []⟩ :=
  rfl

/-- Of the other messages only one of rumors has rumors inside. -/
theorem processEmbedded_other (n : Node) (c : Nat → LayerChoice) (header : Header)
    (inner : Handling) (depth : Nat) (type content : GoString) :
    n.processEmbedded c header inner depth (.other type content) =
      if type = str "rumor" then
        ⟨notified (c depth) depth (.other type content) inner.outcome, inner.writes⟩
      else ⟨n.processPayload c header depth (.other type content), []⟩ := rfl

theorem processEmbedded_plain (n : Node) (c : Nat → LayerChoice) (header : Header)
    (inner : Handling) {msg : Payload} (plain : msg.plain) (depth : Nat) :
    n.processEmbedded c header inner depth msg = ⟨n.processPayload c header depth msg, []⟩ := by
  induction msg generalizing depth with
  | status view => rfl
  | ack ackedPacketID view => rfl
  | privateMessage recipients msg ih =>
      rw [processEmbedded_private]
      unfold processPayload
      split
      · rw [ih plain]
      · rfl
  | other type content =>
      rw [processEmbedded_other]
      exact if_neg (of_decide_eq_true plain)

theorem nestedLoop_flat (c : List Nat → RumorChoice) (header : Header) {rumors : List Rumor}
    (plain : ∀ r ∈ rumors, r.msg.plain) (path : List Nat) (i : Nat) (n : Node) :
    (nestedLoop c header path i n (.ofList rumors)).1.outcome =
        (rumorLoop (c path) header i n rumors).1 ∧
      (nestedLoop c header path i n (.ofList rumors)).2 =
        (rumorLoop (c path) header i n rumors).2 := by
  induction rumors generalizing i n with
  | nil => exact ⟨rfl, rfl⟩
  | cons rumor rumors ih =>
      have rest := ih fun r mem => plain r (List.mem_cons_of_mem rumor mem)
      unfold Nested.ofList nestedLoop rumorLoop processRumorMessage lastSeq
      dsimp only
      split
      · rw [processEmbedded_plain _ _ _ _ (plain rumor List.mem_cons_self)]
        dsimp only
        cases (processPayload _ ((c path).embedded i) header 0 rumor.msg).err with
        | some err => exact ⟨rfl, rfl⟩
        | none =>
            dsimp only [Option.map_none]
            cases sendAckMessage _ ((c path).ack i) header with
            | error err => exact ⟨rfl, rfl⟩
            | ok ack =>
                dsimp only
                rw [(rest (i + 1) _).1]
                exact ⟨rfl, rfl⟩
      · exact rest (i + 1) n

theorem rumors_ofList (rumors : List Rumor) : (Nested.ofList rumors).rumors = rumors := by
  induction rumors with
  | nil => rfl
  | cons rumor rumors ih =>
      unfold Nested.ofList Nested.rumors
      rw [ih]

/-- Rumors that embed none are handled as by the handler of flat messages. -/
theorem handleNested_flat (n : Node) (c : List Nat → RumorChoice) (header : Header)
    {rumors : List Rumor} (plain : ∀ r ∈ rumors, r.msg.plain) :
    (n.handleNested c header (.ofList rumors)).outcome = n.handleRumor (c []) header rumors := by
  obtain ⟨outcome, processed⟩ := nestedLoop_flat c header plain [] 0 n
  unfold handleNested handleRumor finishRumors
  dsimp only
  rw [outcome, processed, rumors_ofList]

/-! ## What a message does to the view -/

/-- Handling a message from `n`: views only grow, the view of an origin does not pass a number that
is not in the message, and in an orderly message no write goes back. -/
structure Follows (message : Nested) (n : Node) (h : Handling) : Prop where
  grows : ∀ origin, n.lastSeq origin ≤ h.outcome.node.lastSeq origin
  bounded : ∀ origin bound, ¬ message.Contains origin (bound + 1) → n.lastSeq origin ≤ bound →
    h.outcome.node.lastSeq origin ≤ bound
  writes : message.Orderly → ∀ w ∈ h.writes, w.old ≤ w.new

section Follows

variable {message : Nested} {n : Node} {h : Handling}

/-- A handler that leaves the view alone. -/
theorem follows_of_same {o : Outcome} (same : o.node.receivedSeq = n.receivedSeq) :
    Follows message n ⟨o, []⟩ := by
  have seq : ∀ origin, o.node.lastSeq origin = n.lastSeq origin := by
    intro origin
    unfold lastSeq
    rw [same]
  refine ⟨fun origin => (seq origin).ge, fun origin bound _ below => ?_, fun _ w mem => ?_⟩
  · rw [seq]
    exact below
  · cases mem

/-- What comes after a handler and leaves the view alone. -/
theorem Follows.of_same {o : Outcome} (follows : Follows message n h)
    (same : o.node.receivedSeq = h.outcome.node.receivedSeq) :
    Follows message n ⟨o, h.writes⟩ := by
  have seq : ∀ origin, o.node.lastSeq origin = h.outcome.node.lastSeq origin := by
    intro origin
    unfold lastSeq
    rw [same]
  refine ⟨fun origin => ?_, fun origin bound absent below => ?_, follows.writes⟩
  · rw [seq]
    exact follows.grows origin
  · rw [seq]
    exact follows.bounded origin bound absent below

theorem Follows.processEmbedded (follows : Follows message n h) (c : Nat → LayerChoice)
    (header : Header) (depth : Nat) (msg : Payload) :
    Follows message n (n.processEmbedded c header h depth msg) := by
  induction msg generalizing depth with
  | status view => exact follows_of_same (processPayload_frame n c header depth _).2.1
  | ack ackedPacketID view => exact follows_of_same (processPayload_frame n c header depth _).2.1
  | privateMessage recipients msg ih =>
      rw [processEmbedded_private]
      split
      · apply (ih (depth + 1)).of_same
        rw [notified_node]
      · apply follows_of_same
        rw [notified_node]
  | other type content =>
      rw [processEmbedded_other]
      split
      · apply follows.of_same
        rw [notified_node]
      · exact follows_of_same (processPayload_frame n c header depth _).2.1

theorem finishRumors_receivedSeq (c : RumorChoice) (header : Header) (rumors : List Rumor)
    (o : Outcome) (processedRumor : Bool) :
    (finishRumors c header rumors o processedRumor).node.receivedSeq = o.node.receivedSeq := by
  unfold finishRumors
  split
  · unfold forwardRumorsMessage
    dsimp only
    split
    · rfl
    · split <;> rfl
  · rfl

/-- The first rumor is accepted once its embedded message has been handled. -/
theorem Follows.accept {rumor : Rumor} {embedded rest : Nested} (follows : Follows embedded n h)
    (next : rumor.sequence = n.lastSeq rumor.origin + 1) (header : Header) (o : Outcome)
    (accepted : o.node = h.outcome.node.acceptRumor header rumor) :
    Follows (.cons rumor embedded rest) n ⟨o, h.writes ++
      [⟨rumor.origin, h.outcome.node.lastSeq rumor.origin, rumor.sequence⟩]⟩ := by
  have seq := lastSeq_acceptRumor h.outcome.node header rumor
  rw [← accepted] at seq
  refine ⟨fun origin => ?_, fun origin bound absent below => ?_, fun orderly w mem => ?_⟩
  · rw [seq]
    split
    · next same =>
      rw [same]
      omega
    · exact follows.grows origin
  · rw [seq]
    split
    · next same =>
      subst same
      have apart : rumor.sequence ≠ bound + 1 := fun number => absent (.inl ⟨rfl, number⟩)
      omega
    · exact follows.bounded origin bound (fun within => absent (.inr (.inl within))) below
  · rcases List.mem_append.mp mem with mem | mem
    · exact follows.writes orderly.2.1 w mem
    · rw [List.mem_singleton.mp mem]
      dsimp only
      -- The embedded rumors have got at most to the number of the outer one.
      by_cases again : embedded.Contains rumor.origin rumor.sequence
      · exact follows.bounded rumor.origin rumor.sequence
          (fun beyond => orderly.1 ⟨again, beyond⟩) (by omega)
      · rw [next] at again
        have short := follows.bounded rumor.origin (n.lastSeq rumor.origin) again le_rfl
        omega

/-- A rumor whose message fails, after which the loop returns. -/
theorem Follows.fail {rumor : Rumor} {embedded rest : Nested} (follows : Follows embedded n h)
    (o : Outcome) (same : o.node = h.outcome.node) :
    Follows (.cons rumor embedded rest) n ⟨o, h.writes⟩ := by
  refine ⟨fun origin => ?_, fun origin bound absent below => ?_, fun orderly => ?_⟩
  · rw [same]
    exact follows.grows origin
  · rw [same]
    exact follows.bounded origin bound (fun within => absent (.inr (.inl within))) below
  · exact follows.writes orderly.2.1

/-- The rest of a message after its first rumor. -/
theorem Follows.trans {rumor : Rumor} {embedded rest : Nested} {h' : Handling}
    (first : Follows (.cons rumor embedded rest) n h) (second : Follows rest h.outcome.node h')
    (o : Outcome) (same : o.node = h'.outcome.node) :
    Follows (.cons rumor embedded rest) n ⟨o, h.writes ++ h'.writes⟩ := by
  refine ⟨fun origin => ?_, fun origin bound absent below => ?_, fun orderly w mem => ?_⟩
  · rw [same]
    exact (first.grows origin).trans (second.grows origin)
  · rw [same]
    exact second.bounded origin bound (fun later => absent (.inr (.inr later)))
      (first.bounded origin bound absent below)
  · rcases List.mem_append.mp mem with mem | mem
    · exact first.writes orderly w mem
    · exact second.writes orderly.2.2 w mem

/-- The loop, at every depth. -/
theorem nestedLoop_follows (c : List Nat → RumorChoice) (header : Header) (message : Nested)
    (path : List Nat) (i : Nat) (n : Node) :
    Follows message n (nestedLoop c header path i n message).1 := by
  induction message generalizing path i n with
  | nil => exact follows_of_same rfl
  | cons rumor embedded rest inside later =>
      unfold nestedLoop
      split
      · next next =>
        dsimp only
        have inner := inside (i :: path) 0 { n with rumorDB := storeRumor n.rumorDB rumor }
        have finished := inner.of_same (finishRumors_receivedSeq (c (i :: path)) header
          embedded.rumors _ (nestedLoop c header (i :: path) 0
            { n with rumorDB := storeRumor n.rumorDB rumor } embedded).2)
        have handled := finished.processEmbedded ((c path).embedded i) header 0 rumor.msg
        have follows : Follows embedded n _ :=
          ⟨handled.grows, handled.bounded, handled.writes⟩
        split
        · exact follows.fail _ rfl
        · split
          · exact follows.accept next header _ rfl
          · have accepted : Follows (.cons rumor embedded rest) n _ :=
              follows.accept next header ⟨_, [], none, []⟩ rfl
            have all := accepted.trans (later path (i + 1) _) ⟨_, [], none, []⟩ rfl
            rw [List.append_assoc, List.singleton_append] at all
            exact ⟨all.grows, all.bounded, all.writes⟩
      · have skipped := later path (i + 1) n
        exact ⟨skipped.grows, fun origin bound absent =>
          skipped.bounded origin bound fun within => absent (.inr (.inr within)),
          fun orderly => skipped.writes orderly.2.2⟩

theorem handleNested_follows (n : Node) (c : List Nat → RumorChoice) (header : Header)
    (message : Nested) : Follows message n (n.handleNested c header message) :=
  (nestedLoop_follows c header message [] 0 n).of_same (finishRumors_receivedSeq _ _ _ _ _)

end Follows

end Node

/-! ## Runs -/

/-- What happens at a node: a broadcast, or a received message of rumors. -/
inductive Call : Type
  | broadcast (msg : Payload)
  | rumors (c : List Nat → RumorChoice) (header : Header) (message : Nested)

namespace Node

/-- The node after a call. -/
def call (n : Node) : Call → Node
  | .broadcast msg => n.broadcast msg
  | .rumors c header message => (n.handleNested c header message).outcome.node

/-- What a call writes to `receivedSeq`. -/
def writes (n : Node) : Call → List Write
  | .broadcast _ => [⟨n.address, n.lastSeq n.address, n.sequenceNumber + 1⟩]
  | .rumors c header message => (n.handleNested c header message).writes

/-- The rumors of an origin in the database. -/
def rumorsOf (n : Node) (origin : GoString) : List Rumor := (n.rumorDB.get origin).getD []

/-- The rumor of the node itself with the last number it has seen is in the database, and embeds the
message. -/
def Kept (n : Node) (msg : Payload) : Prop :=
  (∃ r ∈ n.rumorsOf n.address, r.sequence = n.lastSeq n.address) ∧
    ∀ r ∈ n.rumorsOf n.address, r.sequence = n.lastSeq n.address → r.msg = msg

/-- No write of the call goes back, the view does not either, and a message that is broadcast is
kept. -/
structure Advances (n : Node) (call : Call) : Prop where
  writes : ∀ w ∈ n.writes call, w.old ≤ w.new
  grows : ∀ origin, n.lastSeq origin ≤ (n.call call).lastSeq origin
  kept : ∀ msg, call = .broadcast msg → (n.call call).Kept msg

/-- A broadcast finds no number of the node's own beyond the one it takes, and no other message
under it; a received message is orderly. -/
def OrderlyCall (n : Node) : Call → Prop
  | .broadcast msg => n.lastSeq n.address ≤ n.sequenceNumber + 1 ∧
      ∀ r ∈ n.rumorsOf n.address, r.sequence = n.sequenceNumber + 1 → r.msg = msg
  | .rumors _ _ message => message.Orderly

theorem lastSeq_broadcast (n : Node) (msg : Payload) (origin : GoString) :
    (n.broadcast msg).lastSeq origin =
      if origin = n.address then n.sequenceNumber + 1 else n.lastSeq origin := by
  unfold lastSeq broadcast
  dsimp only
  rw [FinMap.get_add]
  split <;> rfl

theorem mem_insertRumor_self {rumors rumors' : List Rumor} {rumor : Rumor}
    (inserted : insertRumor rumors rumor = some rumors') : rumor ∈ rumors' := by
  unfold insertRumor at inserted
  dsimp only at inserted
  split at inserted
  · cases inserted
  · cases inserted
    exact List.mem_append_right _ List.mem_cons_self

/-- After storing a rumor its number is in the database. -/
theorem exists_sequence_storeRumor (rumorDB : RumorDB) (rumor : Rumor) :
    ∃ r ∈ ((storeRumor rumorDB rumor).get rumor.origin).getD [], r.sequence = rumor.sequence := by
  unfold storeRumor insertInto
  cases inserted : insertRumor ((rumorDB.get rumor.origin).getD []) rumor with
  | none =>
      unfold insertRumor at inserted
      dsimp only at inserted
      split at inserted
      · next hit =>
        obtain ⟨found, here, same⟩ := (Option.any_eq_true _ _).mp hit
        exact ⟨found, List.mem_of_getElem? here, of_decide_eq_true same⟩
      · cases inserted
  | some rumors =>
      refine ⟨rumor, ?_, rfl⟩
      rw [FinMap.get_add_self, Option.getD_some]
      exact mem_insertRumor_self inserted

theorem mem_of_mem_storeRumor {rumorDB : RumorDB} {rumor r : Rumor}
    (mem : r ∈ ((storeRumor rumorDB rumor).get rumor.origin).getD []) :
    r = rumor ∨ r ∈ (rumorDB.get rumor.origin).getD [] := by
  unfold storeRumor insertInto at mem
  cases inserted : insertRumor ((rumorDB.get rumor.origin).getD []) rumor with
  | none =>
      rw [inserted] at mem
      exact .inr mem
  | some rumors =>
      rw [inserted] at mem
      dsimp only at mem
      rw [FinMap.get_add_self, Option.getD_some] at mem
      exact mem_of_mem_insertRumor inserted mem

theorem broadcast_advances {n : Node} {msg : Payload} (orderly : n.OrderlyCall (.broadcast msg)) :
    n.Advances (.broadcast msg) := by
  obtain ⟨free, unused⟩ := orderly
  have own : (n.broadcast msg).lastSeq n.address = n.sequenceNumber + 1 := by
    rw [lastSeq_broadcast, if_pos rfl]
  refine ⟨fun w mem => ?_, fun origin => ?_, fun msg' same => ?_⟩
  · rw [List.mem_singleton.mp mem]
    exact free
  · have seq : (n.call (.broadcast msg)).lastSeq origin = (n.broadcast msg).lastSeq origin := rfl
    rw [seq, lastSeq_broadcast]
    split
    · next here =>
      rw [here]
      exact free
    · exact le_rfl
  · cases same
    have address : (n.call (.broadcast msg)).address = n.address := rfl
    have seq : (n.call (.broadcast msg)).lastSeq n.address = n.sequenceNumber + 1 := own
    unfold Kept
    rw [address, seq]
    refine ⟨exists_sequence_storeRumor n.rumorDB ⟨n.address, n.sequenceNumber + 1, msg⟩,
      fun r mem number => ?_⟩
    rcases mem_of_mem_storeRumor mem with rfl | before
    · rfl
    · exact unused r before number

/-- A call that meets the condition advances. -/
theorem call_advances {n : Node} {call : Call} (orderly : n.OrderlyCall call) :
    n.Advances call := by
  cases call with
  | broadcast msg => exact broadcast_advances orderly
  | rumors c header message =>
      have follows := n.handleNested_follows c header message
      exact ⟨follows.writes orderly, follows.grows, fun msg impossible => by cases impossible⟩

/-- **Views only grow and broadcasts are kept**, in every run whose calls are orderly. -/
theorem advances_of_orderly (n : Node) (calls : List Call)
    (orderly : Run.Always call OrderlyCall n calls) : Run.Always call Advances n calls :=
  orderly.imp (I := fun _ => True) trivial (fun _ _ _ _ => trivial) fun _ _ _ => call_advances

/-! ## Views that go back -/

/-- The rumor of an origin with the number `sequence`, an empty chat message. -/
def sampleRumor (origin : String) (sequence : Nat) : Rumor :=
  ⟨str origin, sequence, .other (str "chat") (str "\x7b\"Message\":\"\"\x7d")⟩

/-- A packet of rumors from `127.0.0.1:2`, handled without failures. -/
def sampleCall (message : Nested) : Call :=
  .rumors (fun _ => (samplePacket none).rumor)
    ⟨str "packet", str "127.0.0.1:2", str "127.0.0.1:2", str "127.0.0.1:1"⟩ message

/-- A node that has been restarted gets its first two rumors back, and then broadcasts. -/
def restarted : List Call :=
  [sampleCall (.ofList [sampleRumor "127.0.0.1:1" 1, sampleRumor "127.0.0.1:1" 2]),
    .broadcast (.other (str "empty") [])]

/-- The encoding of a message of two rumors, the first two of `127.0.0.1:2`. -/
def twoRumors : Bytes :=
  str "\x7b\"Rumors\":[\x7b\"Origin\":\"127.0.0.1:2\",\"Sequence\":1,\"Msg\":" ++
    str "\x7b\"Type\":\"chat\",\"Payload\":\x7b\"Message\":\"\"\x7d\x7d\x7d," ++
    str "\x7b\"Origin\":\"127.0.0.1:2\",\"Sequence\":2,\"Msg\":" ++
    str "\x7b\"Type\":\"chat\",\"Payload\":\x7b\"Message\":\"\"\x7d\x7d\x7d]\x7d"

/-- The first rumor of an origin, with its first two rumors in a message of rumors inside it. -/
def overtaken : List Call :=
  [sampleCall (.cons ⟨str "127.0.0.1:2", 1, .other (str "rumor") twoRumors⟩
    (.ofList [sampleRumor "127.0.0.1:2" 1, sampleRumor "127.0.0.1:2" 2]) .nil)]

/-- In both runs a write goes back from 2 to 1. -/
theorem view_goes_back :
    ¬ Run.Always call Advances (newPeer (str "127.0.0.1:1") 0) restarted ∧
      ¬ Run.Always call Advances (newPeer (str "127.0.0.1:1") 0) overtaken := by
  constructor
  · rintro ⟨-, advances, -⟩
    have back := advances.writes ⟨str "127.0.0.1:1", 2, 1⟩ (by decide +kernel)
    cases back with
    | step impossible => cases impossible
  · rintro ⟨advances, -⟩
    have back := advances.writes ⟨str "127.0.0.1:2", 2, 1⟩ (by decide +kernel)
    cases back with
    | step impossible => cases impossible

/-- A node that is not restarted may get its rumor back. -/
def echo : List Call :=
  [.broadcast (.other (str "chat") []), sampleCall (.ofList [sampleRumor "127.0.0.1:1" 1])]

theorem advances_echo :
    Run.Always call Advances (newPeer (str "127.0.0.1:1") 0) (echo ++ echo) := by
  have free : ∀ n : Node, n = Run.run call (newPeer (str "127.0.0.1:1") 0) echo →
      ∀ r ∈ n.rumorsOf n.address, r.sequence ≠ n.sequenceNumber + 1 := by
    rintro n rfl
    decide +kernel
  refine advances_of_orderly _ _ ⟨⟨by decide +kernel, ?_⟩, ⟨?_, trivial, trivial⟩,
    ⟨by decide +kernel, fun r mem number => ?_⟩, ⟨?_, trivial, trivial⟩, trivial⟩
  · intro r mem
    cases mem
  · rintro ⟨impossible, -⟩
    exact impossible
  · exact (free _ rfl r mem number).elim
  · rintro ⟨impossible, -⟩
    exact impossible

end Node

end Peerster.Gossip
