import Peerster.Replication.System

/-!
# One miner

When one node mines and every other node has its blocks from gossip only, the chain of a node is
what the blocks make of the genesis view that are among the first broadcasts of the miner, as many
as the node has seen (`Follows`).  The loop of `handleRumor` keeps this whatever comes of a rumor: a
block that is refused is not counted and holds up all later ones of the miner, one that is added is
counted, and a call that hangs leaves the node one block ahead of its count and deaf. -/

namespace Peerster.Replication

/-! ## Blocks among the broadcasts -/

/-- The block that a message brings. -/
def blockOf (env : Env) : Gossip.Payload → Option Block
  | .other type content => if type = blockType then (env.blockMessage content).toOption else none
  | .privateMessage _ _ => none
  | .status _ => none
  | .ack _ _ => none

/-- The blocks among messages, in order. -/
def blocksIn (env : Env) (msgs : List Gossip.Payload) : List Block := msgs.filterMap (blockOf env)

/-- What blocks make of the genesis view. -/
def past (env : Env) (blocks : List Block) : View :=
  blocks.foldl (View.add .sorted) (Network.genesisView env.lib)

/-- How many of the miner's broadcasts are in the chain of a node whose view of them is `k`. -/
def seen (k : Nat) (n : Node) : Nat := k + if n.listening = true then 0 else 1

/-- The chain of a node is made of the blocks among the broadcasts it has seen. -/
structure Follows (env : Env) (msgs : List Gossip.Payload) (k : Nat) (n : Node) : Prop where
  within : seen k n ≤ msgs.length
  view : n.view = past env (blocksIn env (msgs.take (seen k n)))

/-- What the miner has broadcast: messages without blocks, and blocks that apply one after the
other. -/
structure Issued (env : Env) (msgs : List Gossip.Payload) : Prop where
  known : ∀ msg ∈ msgs, Blockless msg ∨
    ∃ content block, msg = .other blockType content ∧ env.blockMessage content = .ok block
  applies : ∀ earlier block later, blocksIn env msgs = earlier ++ block :: later →
    (Node.applyBlock .sorted (past env earlier).utxoSet block).2 = none

section Blocks

variable {env : Env} {msgs : List Gossip.Payload} {msg : Gossip.Payload} {k : Nat} {n n' : Node}

theorem blockOf_blockless (blockless : Blockless msg) : blockOf env msg = none := by
  cases msg with
  | other type content => exact if_neg fun same => blockless (congrArg some same)
  | _ => rfl

theorem blockOf_block {content : Bytes} {block : Block}
    (decodes : env.blockMessage content = .ok block) :
    blockOf env (.other blockType content) = some block := by
  rw [blockOf, if_pos rfl, decodes]
  rfl

theorem blocksIn_append (env : Env) (msgs msgs' : List Gossip.Payload) :
    blocksIn env (msgs ++ msgs') = blocksIn env msgs ++ blocksIn env msgs' :=
  List.filterMap_append

theorem blocksIn_concat (env : Env) (msgs : List Gossip.Payload) (msg : Gossip.Payload) :
    blocksIn env (msgs ++ [msg]) = blocksIn env msgs ++ (blockOf env msg).toList :=
  blocksIn_append env msgs [msg]

theorem past_concat (env : Env) (blocks : List Block) (block : Block) :
    past env (blocks ++ [block]) = (past env blocks).add .sorted block := by
  rw [past, List.foldl_append, List.foldl_cons, List.foldl_nil, ← past]

theorem seen_of_listening (up : n.listening = true) : seen k n = k := by
  rw [seen, if_pos up, Nat.add_zero]

theorem seen_of_deaf (deaf : n.listening = false) : seen k n = k + 1 := by
  rw [seen, deaf, if_neg Bool.false_ne_true]

theorem seen_congr (same : n'.listening = n.listening) : seen k n' = seen k n := by
  rw [seen, seen, same]

theorem blocksIn_take_succ (found : msgs[k]? = some msg) :
    blocksIn env (msgs.take (k + 1)) = blocksIn env (msgs.take k) ++ (blockOf env msg).toList := by
  rw [List.take_add_one, found, Option.toList_some, blocksIn_concat]

namespace Follows

/-- What is neither in the view nor tells whether the listener runs may change freely. -/
theorem of_same (follows : Follows env msgs k n) (view : n'.view = n.view)
    (listening : n'.listening = n.listening) : Follows env msgs k n' := by
  refine ⟨?_, ?_⟩
  · rw [seen_congr listening]
    exact follows.within
  · rw [view, seen_congr listening]
    exact follows.view

/-- More broadcasts change nothing for a node that has not seen them. -/
theorem mono {msgs' : List Gossip.Payload} (follows : Follows env msgs k n)
    (grows : msgs <+: msgs') : Follows env msgs' k n := by
  obtain ⟨more, rfl⟩ := grows
  refine ⟨?_, ?_⟩
  · rw [List.length_append]
    exact follows.within.trans (Nat.le_add_right _ _)
  · rw [List.take_append_of_le_length follows.within]
    exact follows.view

/-- A node that has seen all broadcasts listens, and has all blocks. -/
theorem of_all (follows : Follows env msgs k n) (all : k = msgs.length) :
    n.listening = true ∧ n.view = past env (blocksIn env msgs) := by
  subst all
  have up : n.listening = true := by
    by_contra deaf
    have within := follows.within
    rw [seen_of_deaf (Bool.not_eq_true _ ▸ deaf)] at within
    omega
  have view := follows.view
  rw [seen_of_listening up, List.take_length] at view
  exact ⟨up, view⟩

/-- A message without a block may be counted. -/
theorem count (follows : Follows env msgs k n) (up : n.listening = true)
    (found : msgs[k]? = some msg) (blockless : Blockless msg) : Follows env msgs (k + 1) n := by
  have view := follows.view
  obtain ⟨inside, -⟩ := List.getElem?_eq_some_iff.mp found
  rw [seen_of_listening up] at view
  refine ⟨?_, ?_⟩
  · rw [seen_of_listening up]
    exact inside
  · rw [seen_of_listening up, blocksIn_take_succ found, blockOf_blockless blockless, view]
    exact congrArg (past env) (List.append_nil _).symm

/-- A block that is added is counted by the number, or by the listener that does not run any
more. -/
theorem add {content : Bytes} {block : Block} {k' : Nat} (follows : Follows env msgs k n)
    (up : n.listening = true) (found : msgs[k]? = some (.other blockType content))
    (decodes : env.blockMessage content = .ok block) (view : n'.view = n.view.add .sorted block)
    (counted : seen k' n' = k + 1) : Follows env msgs k' n' := by
  have before := follows.view
  obtain ⟨inside, -⟩ := List.getElem?_eq_some_iff.mp found
  rw [seen_of_listening up] at before
  refine ⟨?_, ?_⟩
  · rw [counted]
    exact inside
  · rw [counted, blocksIn_take_succ found, blockOf_block decodes, Option.toList_some, past_concat,
      view, before]

/-- The next block of the miner applies. -/
theorem applies {content : Bytes} {block : Block} (follows : Follows env msgs k n)
    (issued : Issued env msgs) (up : n.listening = true)
    (found : msgs[k]? = some (.other blockType content))
    (decodes : env.blockMessage content = .ok block) :
    (Node.applyBlock .sorted n.utxoSet block).2 = none := by
  have view := congrArg View.utxoSet follows.view
  rw [seen_of_listening up] at view
  have split : msgs = msgs.take (k + 1) ++ msgs.drop (k + 1) := (List.take_append_drop _ _).symm
  have blocks := congrArg (blocksIn env) split
  rw [blocksIn_append, blocksIn_take_succ found, blockOf_block decodes, Option.toList_some,
    List.append_assoc] at blocks
  have applied := issued.applies _ block _ blocks
  rw [← view] at applied
  exact applied

end Follows

end Blocks

/-! ## A message of rumors -/

/-- A rumor of the miner is its broadcast with this number, and any other rumor brings no block. -/
def Genuine (m : GoString) (msgs : List Gossip.Payload) (r : Gossip.Rumor) : Prop :=
  (r.origin = m → 1 ≤ r.sequence ∧ msgs[r.sequence - 1]? = some r.msg) ∧
    (r.origin ≠ m → Blockless r.msg)

section Loop

variable {env : Env} {m : GoString} {msgs : List Gossip.Payload} {amb : Ambient}
  {address : GoString} {n : Node} {g : Gossip.Node}

/-- Gossip sees an error exactly when the handler of a block does not return without one. -/
theorem processRumorMessage_err {c : Nat → Gossip.LayerChoice} {header : Gossip.Header}
    {rumor : Gossip.Rumor} {content : Bytes} {result : Return}
    (block : rumor.msg = .other blockType content)
    (agreed : agrees address result c 0 rumor.msg = true) :
    (g.processRumorMessage c header rumor).err = none ↔ result = .ok := by
  rw [block, agrees, if_pos (.inl rfl), Bool.and_eq_true, Option.isNone_iff_eq_none] at agreed
  obtain ⟨results, silent⟩ := agreed
  have outcome : (g.processRumorMessage c header rumor).err = none ↔ (c 0).handled = none := by
    unfold Gossip.Node.processRumorMessage
    dsimp only
    rw [block, Option.map_eq_none_iff, Gossip.Node.processPayload, Gossip.Node.notified, silent]
    cases (c 0).handled <;> simp
  rw [outcome]
  unfold told at results
  cases result with
  | ok => exact iff_of_true (Option.isNone_iff_eq_none.mp results) rfl
  | error err =>
      refine iff_of_false (fun none => ?_) Return.noConfusion
      rw [none] at results
      cases results
  | hangs =>
      refine iff_of_false (fun none => ?_) Return.noConfusion
      rw [none] at results
      cases results

/-- **A rumor that is tried.**  When its message is processed without an error the chain follows
with the rumor counted, and otherwise with the rumor not counted. -/
theorem Follows.attempt (follows : Follows env msgs (g.lastSeq m) n) (issued : Issued env msgs)
    (up : n.listening = true) {c : Nat → Gossip.LayerChoice} {header : Gossip.Header}
    {rumor : Gossip.Rumor} (genuine : Genuine m msgs rumor)
    (next : rumor.sequence = g.lastSeq rumor.origin + 1)
    (agreed : agrees address (env.process amb address n rumor.msg).2 c 0 rumor.msg = true) :
    let o := g.processRumorMessage c header rumor
    let n' := (env.process amb address n rumor.msg).1
    (o.err ≠ none → Follows env msgs (o.node.lastSeq m) n') ∧
      (o.err = none → n'.listening = true ∧
        Follows env msgs ((o.node.acceptRumor header rumor).lastSeq m) n') := by
  intro o n'
  have same : o.node.lastSeq m = g.lastSeq m := g.lastSeq_processRumorMessage c header rumor m
  rw [Gossip.Node.lastSeq_acceptRumor, same]
  by_cases own : rumor.origin = m
  · subst own
    obtain ⟨positive, found⟩ := genuine.1 rfl
    rw [next, Nat.add_sub_cancel] at found
    rw [if_pos rfl, next]
    rcases issued.known _ (List.mem_of_getElem? found) with
      blockless | ⟨content, block, is, decodes⟩
    · obtain ⟨view, listening⟩ := process_blockless env amb address n blockless
      have kept : Follows env msgs (g.lastSeq rumor.origin) n' := follows.of_same view listening
      have up' : n'.listening = true := listening.trans up
      exact ⟨fun _ => kept, fun _ => ⟨up', kept.count up' found blockless⟩⟩
    · have returns : (g.processRumorMessage c header rumor).err = none ↔
          (env.process amb address n rumor.msg).2 = .ok := processRumorMessage_err is agreed
      rw [is] at found
      have processed : env.process amb address n rumor.msg =
          n.handleBlockMessage env.lib amb block := by
        rw [is, Env.process, if_pos rfl, decodes]
      rcases handleBlockMessage_cases env.lib amb (follows.applies issued up found decodes) with
        ⟨err, refused⟩ | ⟨view, ⟨ok, listening⟩ | ⟨hangs, deaf⟩⟩
      · rw [← processed] at refused
        have here : n' = n := congrArg Prod.fst refused
        rw [here]
        refine ⟨fun _ => follows, fun returned => ?_⟩
        have ok := returns.mp returned
        rw [refused] at ok
        cases ok
      · rw [← processed] at view ok listening
        have up' : n'.listening = true := listening.trans up
        refine ⟨fun failed => (failed (returns.mpr ok)).elim, fun _ => ⟨up', ?_⟩⟩
        exact follows.add up found decodes view (seen_of_listening up')
      · rw [← processed] at view hangs deaf
        have added := follows.add up found decodes view (seen_of_deaf deaf)
        refine ⟨fun _ => added, fun returned => ?_⟩
        have ok := returns.mp returned
        rw [hangs] at ok
        cases ok
  · obtain ⟨view, listening⟩ := process_blockless env amb address n (genuine.2 own)
    have kept : Follows env msgs (g.lastSeq m) n' := follows.of_same view listening
    rw [if_neg fun own' => own own'.symm]
    exact ⟨fun _ => kept, fun _ => ⟨listening.trans up, kept⟩⟩

/-- **A message of rumors.**  Wherever its handling stops, the chain follows. -/
theorem Follows.rumorLoop (issued : Issued env msgs) (c : Gossip.PacketChoice)
    (header : Gossip.Header) (amb : Nat → Ambient) (i : Nat) {rumors : List Gossip.Rumor}
    (genuine : ∀ r ∈ rumors, Genuine m msgs r) (follows : Follows env msgs (g.lastSeq m) n)
    (up : n.listening = true)
    (agreed : env.agreesAll address n
      ((Gossip.Node.rumorLoop c.rumor header i g rumors).1.executed.filterMap
        (ofExecution c amb)) = true) :
    Follows env msgs ((Gossip.Node.rumorLoop c.rumor header i g rumors).1.node.lastSeq m)
      (env.processAll address n
        ((Gossip.Node.rumorLoop c.rumor header i g rumors).1.executed.filterMap
          (ofExecution c amb))) := by
  induction rumors generalizing i g n with
  | nil => exact follows
  | cons rumor rumors ih =>
      have rest : ∀ r ∈ rumors, Genuine m msgs r :=
        fun r mem => genuine r (List.mem_cons_of_mem rumor mem)
      have tried := ofExecution_processRumorMessage c amb g header i rumor
      have first := genuine rumor List.mem_cons_self
      unfold Gossip.Node.rumorLoop at agreed ⊢
      by_cases next : rumor.sequence = (g.receivedSeq.get rumor.origin).getD 0 + 1
      · rw [if_pos next] at agreed ⊢
        dsimp only at agreed ⊢
        cases outcome : (g.processRumorMessage (c.rumor.embedded i) header rumor).err with
        | some err =>
            rw [outcome] at agreed
            dsimp only at agreed ⊢
            rw [tried, Env.agreesAll, Bool.and_eq_true] at agreed
            rw [tried]
            exact (follows.attempt issued up first next agreed.1).1
              (Option.ne_none_iff_exists'.mpr ⟨err, outcome⟩)
        | none =>
            rw [outcome] at agreed
            dsimp only at agreed ⊢
            cases acked :
                ((g.processRumorMessage (c.rumor.embedded i) header rumor).node.acceptRumor
                  header rumor).sendAckMessage (c.rumor.ack i) header with
            | error err =>
                rw [acked] at agreed
                dsimp only at agreed ⊢
                rw [tried, Env.agreesAll, Bool.and_eq_true] at agreed
                rw [tried]
                exact ((follows.attempt issued up first next agreed.1).2 outcome).2
            | ok ack =>
                rw [acked] at agreed
                dsimp only at agreed ⊢
                rw [List.filterMap_append, tried, List.singleton_append, Env.agreesAll,
                  Bool.and_eq_true] at agreed
                rw [List.filterMap_append, tried, List.singleton_append, Env.processAll,
                  List.foldl_cons, ← Env.processAll]
                obtain ⟨up', counted⟩ :=
                  (follows.attempt issued up first next agreed.1).2 outcome
                exact ih (i + 1) rest counted up' agreed.2
      · rw [if_neg next] at agreed ⊢
        exact ih (i + 1) rest follows up agreed

/-- **A packet.**  The messages of packets without rumors bring no block. -/
theorem Follows.packet (issued : Issued env msgs) (c : Gossip.PacketChoice) (amb : Nat → Ambient)
    {pkt : Gossip.Packet} (genuine : ∀ r ∈ pkt.msg.carried, Genuine m msgs r)
    (plain : pkt.msg.Plain Blockless) (follows : Follows env msgs (g.lastSeq m) n)
    (up : n.listening = true)
    (agreed : env.agreesAll address n (processings g c amb pkt) = true) :
    Follows env msgs ((g.handleIncomingPacket c pkt).node.lastSeq m)
      (env.processAll address n (processings g c amb pkt)) := by
  unfold processings Gossip.Node.handleIncomingPacket at agreed ⊢
  split
  · next here =>
    rw [if_pos here] at agreed
    cases carried : pkt.msg with
    | rumors rumors =>
        rw [carried] at agreed genuine
        dsimp only at agreed ⊢
        rw [Gossip.Node.handleRumor_executed] at agreed
        rw [Gossip.Node.lastSeq_eq_entry (g.handleRumor ..).node,
          Gossip.Node.handleRumor_node_entry, Gossip.Node.handleRumor_executed]
        exact Follows.rumorLoop issued c pkt.header amb 0 genuine follows up agreed
    | payload msg =>
        rw [carried] at plain
        dsimp only
        rw [Gossip.Node.lastSeq_eq_entry (g.processPayload ..).node,
          Gossip.Node.processPayload_entry, ofExecution_processPayload]
        obtain ⟨view, listening⟩ := process_blockless env (amb 0) address n plain
        exact follows.of_same view listening
  · exact follows

end Loop

end Peerster.Replication
