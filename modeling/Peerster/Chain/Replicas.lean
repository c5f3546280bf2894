import Peerster.Chain.Node
import Peerster.Lib.Broadcast

/-!
# Several nodes

A network of nodes that run the chain code: every mined block is broadcast, and every copy is
delivered once to its receiver.  What the nodes are to agree on is the UTXO set and the last block
(`View`).  A block acts on a view as a function of the view and the block (`View.process`), whatever
the iteration orders of the node, so a node's view is determined by the blocks it has processed and
their order (`view_eq_foldl`).  There is nothing in the code that makes two nodes process blocks in
the same order; nodes that do agree (`agree_of_common_order`).
-/

namespace Peerster

/-! ## Iteration order does not matter -/

theorem applyTransaction_order (order order' : UTXOOrder) (s : UTXOSet) (t : Transaction) :
    applyTransaction order s t = applyTransaction order' s t := by
  have consume : ∀ notFound, consumeUTXO order s t notFound = consumeUTXO order' s t notFound := by
    intro notFound
    unfold consumeUTXO
    cases found : findUTXO order s t.input with
    | ok u =>
        have holds := (exists_findUTXO_iff order).mp ⟨u, found⟩
        obtain ⟨u', found'⟩ := (exists_findUTXO_iff order').mpr holds
        rw [found']
    | error err =>
        have absent := (findUTXO_error_iff order).mp ⟨err, found⟩
        obtain ⟨err', found'⟩ := (findUTXO_error_iff order').mpr absent
        rw [found']
  unfold applyTransaction
  cases t.type with
  | nameNew => rfl
  | nameFirstUpdate => exact consume _
  | nameUpdate => exact consume _
  | other kind => rfl

theorem applyTransactions_order (order order' : UTXOOrder) (s : UTXOSet) (ts : List Transaction) :
    applyTransactions order s ts = applyTransactions order' s ts := by
  induction ts generalizing s with
  | nil => rfl
  | cons t ts ih =>
      unfold applyTransactions
      rw [applyTransaction_order order order']
      cases applyTransaction order' s t with
      | error err => rfl
      | ok s' => exact ih s'

theorem Node.applyBlock_order (order order' : UTXOOrder) (s : UTXOSet) (block : Block) :
    Node.applyBlock order s block = Node.applyBlock order' s block := by
  unfold Node.applyBlock
  rw [applyTransactions_order order order']

/-! ## Views -/

namespace View

theorem add_order (order order' : UTXOOrder) (v : View) (block : Block) :
    v.add order block = v.add order' block := by
  unfold add
  rw [Node.applyBlock_order order order']

/-- `validateBlock` on a keyed set, with the outcomes of the expiration checks given: `late t` says
that the output of `t` expires before the time of the check. -/
def Accepts (late : Transaction → Bool) (s : UTXOSet) (block : Block) : Prop :=
  block.transactions ≠ [] ∧
    ∀ t ∈ block.transactions, late t = false ∧ t.Valid t.output.expiration s

open Classical in
/-- What processing a block does to a view, with the outcomes of the expiration checks given. -/
noncomputable def process (late : Block → Transaction → Bool) (v : View) (block : Block) : View :=
  if Accepts (late block) v.utxoSet block then v.add .sorted block else v

end View

/-- Apart from the expiration check, validity does not depend on the clock. -/
theorem Transaction.valid_iff_of_outcome {now : Time} {s : UTXOSet} {t : Transaction} {late : Bool}
    (outcome : t.output.expiration < now ↔ late = true) :
    t.Valid now s ↔ late = false ∧ t.Valid t.output.expiration s := by
  unfold Transaction.Valid
  have inTime : now ≤ t.output.expiration ↔ late = false := by
    rw [← not_lt, outcome, Bool.not_eq_true]
  rw [inTime]
  constructor
  · intro valid
    exact ⟨valid.2.1, valid.1, le_refl _, valid.2.2⟩
  · intro valid
    exact ⟨valid.2.1, valid.1, valid.2.2.2⟩

theorem validateBlock_ok_iff_accepts {lib : Stdlib} {amb : Ambient} {s : UTXOSet} {block : Block}
    {late : Transaction → Bool} (keyed : Keyed s)
    (outcomes : ∀ t ∈ block.transactions, t.output.expiration < amb.now ↔ late t = true) :
    validateBlock lib amb s block = .ok () ↔ View.Accepts late s block := by
  rw [validateBlock_ok_iff]
  refine and_congr_right fun _ => forall_congr' fun t => forall_congr' fun mem => ?_
  rw [validateTransaction_ok_iff keyed, Transaction.valid_iff_of_outcome (outcomes t mem)]

/-! ## The network -/

/-- The nodes and the blocks broadcast between them. -/
structure Network (k : Nat) where
  nodes : Fin k → Node
  bus : Bus k Block

namespace Network

variable {k : Nat}

/-- An event at one of the nodes. -/
abbrev Action (k : Nat) := Fin k × Node.Event

/-- All nodes have started, each on its own store. -/
def initial (lib : Stdlib) (order : Fin k → UTXOOrder) (bcStore : Fin k → Store) : Network k :=
  ⟨fun i => Node.start lib (order i) (Node.newPeer (bcStore i)), .empty⟩

/-- One step of the network.  A block message is a copy in flight to a node whose listener runs; a
mined block is sent to all other nodes. -/
def step (lib : Stdlib) (net : Network k) (a : Action k) : Network k :=
  let n := net.nodes a.1
  let nodes := Function.update net.nodes a.1 (n.step lib a.2)
  match a.2 with
  | .blockMessage _ block =>
      if (a.1, block) ∈ net.bus.inFlight ∧ n.listening = true then
        ⟨nodes, net.bus.receive a.1 block⟩
      else net
  | .finishMining _ _ =>
      match n.applied lib a.2 with
      | none => ⟨nodes, net.bus⟩
      | some (_, block) => ⟨nodes, net.bus.publish a.1 block⟩
  | .transactionMessage _ _ => ⟨nodes, net.bus⟩
  | .startMining _ => ⟨nodes, net.bus⟩

/-- All nodes have the same UTXO set and the same last block. -/
def Agree (net : Network k) : Prop := ∀ i j, (net.nodes i).view = (net.nodes j).view

/-- The expiration checks on a block that a node receives or mines come out as `late` says, which is
the same for all nodes. -/
def SameOutcomes (lib : Stdlib) (late : Block → Transaction → Bool) (net : Network k)
    (a : Action k) : Prop :=
  match a.2 with
  | .blockMessage amb block =>
      ∀ t ∈ block.transactions, t.output.expiration < amb.now ↔ late block t = true
  | .finishMining amb _ =>
      ∀ order block, (net.nodes a.1).applied lib a.2 = some (order, block) →
        ∀ t ∈ block.transactions, t.output.expiration < amb.now ↔ late block t = true
  | .transactionMessage _ _ => True
  | .startMining _ => True

/-- A block that a node mines passes `validateBlock` in the state in which the node adds it. -/
def MinesValid (lib : Stdlib) (net : Network k) (a : Action k) : Prop :=
  match a.2 with
  | .finishMining amb _ =>
      ∀ order block, (net.nodes a.1).applied lib a.2 = some (order, block) →
        validateBlock lib amb (net.nodes a.1).utxoSet block = .ok ()
  | .blockMessage _ _ => True
  | .transactionMessage _ _ => True
  | .startMining _ => True

/-- The view every node starts with. -/
def genesisView (lib : Stdlib) : View := ⟨.empty, some (Node.genesisBlock lib).hash⟩

/-- The view of every node is what its log makes of the genesis view, and the broadcast is
balanced. -/
structure Tracks (lib : Stdlib) (late : Block → Transaction → Bool) (net : Network k) : Prop where
  keyed : ∀ i, Keyed (net.nodes i).utxoSet
  view : ∀ i, (net.nodes i).view =
    (net.bus.log i).foldl (View.process late) (genesisView lib)
  balanced : net.bus.Balanced

section Invariant

variable {lib : Stdlib} {late : Block → Transaction → Bool} {net : Network k}

theorem initial_tracks (lib : Stdlib) (late : Block → Transaction → Bool)
    (order : Fin k → UTXOOrder) (bcStore : Fin k → Store) :
    (initial lib order bcStore).Tracks lib late := by
  refine ⟨fun i => ?_, fun i => Node.start_view lib (order i) (bcStore i), Bus.empty_balanced⟩
  intro d u present
  rw [initial, Node.start_utxoSet] at present
  cases present

/-- A step of node `i` that leaves its log alone leaves its view alone. -/
theorem Tracks.quiet {i : Fin k} {n : Node} (tracks : net.Tracks lib late)
    (keyed : Keyed n.utxoSet) (same : n.view = (net.nodes i).view) :
    Tracks lib late ⟨Function.update net.nodes i n, net.bus⟩ := by
  refine ⟨?_, ?_, tracks.balanced⟩
  · apply (Function.forall_update_iff net.nodes fun _ n => Keyed n.utxoSet).mpr
    exact ⟨keyed, fun j _ => tracks.keyed j⟩
  · apply (Function.forall_update_iff net.nodes fun j n =>
      n.view = (net.bus.log j).foldl (View.process late) (genesisView lib)).mpr
    exact ⟨same.trans (tracks.view i), fun j _ => tracks.view j⟩

/-- A step of node `i` that processes a block and logs it. -/
theorem Tracks.logged {i : Fin k} {n : Node} {bus : Bus k Block} {block : Block}
    (tracks : net.Tracks lib late) (keyed : Keyed n.utxoSet)
    (processed : n.view = (net.nodes i).view.process late block)
    (log : bus.log = Function.update net.bus.log i (net.bus.log i ++ [block]))
    (balanced : bus.Balanced) :
    Tracks lib late ⟨Function.update net.nodes i n, bus⟩ := by
  refine ⟨?_, ?_, balanced⟩
  · apply (Function.forall_update_iff net.nodes fun _ n => Keyed n.utxoSet).mpr
    exact ⟨keyed, fun j _ => tracks.keyed j⟩
  · apply (Function.forall_update_iff net.nodes fun j n =>
      n.view = (bus.log j).foldl (View.process late) (genesisView lib)).mpr
    rw [log]
    refine ⟨?_, fun j other => ?_⟩
    · rw [Function.update_self, List.foldl_append, ← tracks.view i]
      exact processed
    · rw [Function.update_of_ne other]
      exact tracks.view j

/-- A received block is processed. -/
theorem view_blockMessage {n : Node} {amb : Ambient} {block : Block} (keyed : Keyed n.utxoSet)
    (up : n.listening = true)
    (outcomes : ∀ t ∈ block.transactions, t.output.expiration < amb.now ↔ late block t = true) :
    (n.step lib (.blockMessage amb block)).view = n.view.process late block := by
  have accepted_iff : validateBlock lib amb n.utxoSet block = .ok () ↔
      View.Accepts (late block) n.view.utxoSet block :=
    validateBlock_ok_iff_accepts keyed outcomes
  rw [Node.step_view]
  unfold View.process
  by_cases valid : validateBlock lib amb n.utxoSet block = .ok ()
  · rw [if_pos (accepted_iff.mp valid)]
    simp only [Node.applied, up, valid, and_self, if_true]
    exact View.add_order _ _ _ _
  · rw [if_neg (fun accepts => valid (accepted_iff.mpr accepts))]
    simp only [Node.applied, valid, and_false, if_false]

/-- A mined block that passes validation is processed. -/
theorem view_mined {n : Node} {e : Node.Event} {amb : Ambient} {order : UTXOOrder} {block : Block}
    (keyed : Keyed n.utxoSet) (mined : n.applied lib e = some (order, block))
    (outcomes : ∀ t ∈ block.transactions, t.output.expiration < amb.now ↔ late block t = true)
    (valid : validateBlock lib amb n.utxoSet block = .ok ()) :
    (n.step lib e).view = n.view.process late block := by
  rw [Node.step_view, mined]
  unfold View.process
  have accepts : View.Accepts (late block) n.view.utxoSet block :=
    (validateBlock_ok_iff_accepts keyed outcomes).mp valid
  rw [if_pos accepts]
  exact View.add_order _ _ _ _

theorem Tracks.step {a : Action k} (tracks : net.Tracks lib late)
    (outcomes : SameOutcomes lib late net a) (valid : MinesValid lib net a) :
    (net.step lib a).Tracks lib late := by
  obtain ⟨i, e⟩ := a
  have keyed : Keyed ((net.nodes i).step lib e).utxoSet := Node.step_keyed (tracks.keyed i) e
  cases e with
  | transactionMessage amb tx => exact tracks.quiet keyed (Node.step_view lib (net.nodes i) _)
  | startMining amb => exact tracks.quiet keyed (Node.step_view lib (net.nodes i) _)
  | blockMessage amb block =>
      simp only [Network.step]
      split
      · next enabled =>
        obtain ⟨underWay, up⟩ := enabled
        exact tracks.logged keyed (view_blockMessage (tracks.keyed i) up outcomes) rfl
          (tracks.balanced.receive underWay)
      · exact tracks
  | finishMining amb polls =>
      simp only [Network.step]
      have changed := Node.step_view lib (net.nodes i) (.finishMining amb polls)
      split
      · next idle =>
        rw [idle] at changed
        exact tracks.quiet keyed changed
      · next order block mined =>
        exact tracks.logged keyed
          (view_mined (tracks.keyed i) mined (outcomes order block mined)
            (valid order block mined)) rfl (tracks.balanced.publish i block)

end Invariant

/-- With no block in flight, all nodes agree, provided that the expiration checks have the same
outcome on all nodes. -/
def AgreesWhenQuiet (lib : Stdlib) (order : Fin k → UTXOOrder) (bcStore : Fin k → Store)
    (actions : List (Action k)) : Prop :=
  ∀ late, Run.Always (step lib) (SameOutcomes lib late) (initial lib order bcStore) actions →
    (Run.run (step lib) (initial lib order bcStore) actions).bus.inFlight = [] →
      (Run.run (step lib) (initial lib order bcStore) actions).Agree

/-- **Agreement under a common order.**  If all nodes process the blocks in the order of one
sequence, and every node mines only blocks that pass validation where it adds them, then the nodes
agree whenever no block is in flight. -/
theorem agree_of_common_order (lib : Stdlib) (order : Fin k → UTXOOrder) (bcStore : Fin k → Store)
    (actions : List (Action k)) (late : Block → Transaction → Bool) (sequence : List Block)
    (outcomes : Run.Always (step lib) (SameOutcomes lib late) (initial lib order bcStore) actions)
    (valid : Run.Always (step lib) (MinesValid lib) (initial lib order bcStore) actions)
    (follows : ∀ i,
      (Run.run (step lib) (initial lib order bcStore) actions).bus.log i <+: sequence)
    (quiet : (Run.run (step lib) (initial lib order bcStore) actions).bus.inFlight = []) :
    (Run.run (step lib) (initial lib order bcStore) actions).Agree := by
  have tracks := (outcomes.and valid).run_invariant (initial_tracks lib late order bcStore)
    fun _ _ tracks conditions => tracks.step conditions.1 conditions.2
  intro i j
  rw [tracks.view i, tracks.view j, Bus.log_eq_of_quiet tracks.balanced quiet follows i j]

end Network

/-! ## Two miners

Two registrations of `example.com`, by two owners, and the block each of them makes on top of the
genesis block.  The JSON texts and the SHA-256 digests of the run are written out; the IDs are such
that the first challenge meets the target. -/

/-- The JSON text of a registration of `example.com`. -/
def registrationJson (id owner : String) : Bytes :=
  str "\x7b\"ID\":\"" ++ str id ++ str "\",\"Type\":\"name_new\",\"Input\":\x7b" ++
    str "\"DomainName\":\"\",\"IP\":\"\",\"Owner\":\"\"," ++
    str "\"Expiration\":\"0001-01-01T00:00:00Z\"\x7d," ++
    str "\"Output\":\x7b\"DomainName\":\"example.com\",\"IP\":\"192.168.1.1\"," ++
    str "\"Owner\":\"" ++ str owner ++
    str "\",\"Expiration\":\"1970-01-01T00:00:00.00000001Z\"\x7d," ++
    str "\"PlainDomain\":\"example.com\"," ++
    str "\"Salt\":\"\",\"HashedDomain\":\"\",\"Fees\":1\x7d"

/-- The JSON text of a block, its hashes in base64. -/
def blockJson (hash prevBlockHash nonce : String) (txs : Bytes) : Bytes :=
  str "\x7b\"Hash\":\"" ++ str hash ++ str "\",\"PrevBlockHash\":\"" ++ str prevBlockHash ++
    str "\",\"Nonce\":" ++ str nonce ++ str ",\"Challenge\":0,\"Transactions\":[" ++ txs ++
    str "]\x7d"

/-- SHA-256 of the first miner's preimage. -/
def hash1 : Digest :=
  ⟨[0, 0, 115, 136, 126, 238, 3, 123, 163, 102, 208, 55, 195, 19, 31, 17, 13, 207, 13, 133, 199,
    204, 203, 79, 57, 190, 201, 11, 31, 237, 70, 113], by decide⟩

/-- SHA-256 of the second miner's preimage. -/
def hash2 : Digest :=
  ⟨[0, 11, 69, 108, 63, 119, 83, 239, 17, 93, 254, 75, 78, 114, 15, 1, 221, 131, 11, 253, 153, 57,
    199, 130, 25, 189, 186, 127, 184, 56, 239, 218], by decide⟩

def claim1 : Transaction := sampleTx .nameNew "tx2149" .zero (sampleUTXO "example.com" "owner1" 10)

def claim2 : Transaction := sampleTx .nameNew "tx8889" .zero (sampleUTXO "example.com" "owner2" 10)

def block1 : Block := ⟨hash1.1, genesisHash.1, 2, 0, [claim1]⟩

def block2 : Block := ⟨hash2.1, genesisHash.1, 2, 0, [claim2]⟩

def minersJson (block : Block) : Option Bytes :=
  if block = sampleGenesis then
    some (blockJson "lZrw+ZHQJvEB+ENtaBYs5iOlyUPdqSFnARv/vgaFYd8="
      "YOBb0bGVry+UES+nGXpciCiQWIQM58bflpN1a8YlD1U=" "1" [])
  else if block = block1 then
    some (blockJson "AABziH7uA3ujZtA3wxMfEQ3PDYXHzMtPOb7JCx/tRnE="
      "lZrw+ZHQJvEB+ENtaBYs5iOlyUPdqSFnARv/vgaFYd8=" "2" (registrationJson "tx2149" "owner1"))
  else if block = block2 then
    some (blockJson "AAtFbD93U+8RXf5LTnIPAd2DC/2ZOceCGb26f7g479o="
      "lZrw+ZHQJvEB+ENtaBYs5iOlyUPdqSFnARv/vgaFYd8=" "2" (registrationJson "tx8889" "owner2"))
  else none

/-- The standard library on the values of the run. -/
def minersLib : Stdlib where
  sha256 data :=
    if data = lastBlockKey then genesisParent
    else if data = str "0" ++ registrationJson "tx2149" "owner1" ++ genesisHash.1 then hash1
    else if data = str "0" ++ registrationJson "tx8889" "owner2" ++ genesisHash.1 then hash2
    else genesisHash
  marshalTransaction tx :=
    if tx = claim1 then some (registrationJson "tx2149" "owner1")
    else if tx = claim2 then some (registrationJson "tx8889" "owner2")
    else none
  marshalBlock := minersJson
  unmarshalBlock data := [sampleGenesis, block1, block2].find? fun b => minersJson b = some data

namespace Network

def miners : Network 2 := initial minersLib (fun _ => .sorted) fun _ => sampleStore

/-- Each node receives one of the claims and mines it; then the blocks are delivered. -/
def bothMine : List (Action 2) :=
  [(0, .transactionMessage (sampleAmbient 0) claim1),
    (1, .transactionMessage (sampleAmbient 0) claim2),
    (0, .startMining (sampleAmbient 0)), (1, .startMining (sampleAmbient 0)),
    (0, .finishMining (sampleAmbient 0) 1), (1, .finishMining (sampleAmbient 0) 1),
    (1, .blockMessage (sampleAmbient 0) block1), (0, .blockMessage (sampleAmbient 0) block2)]

/-- The first node alone receives a claim and mines it. -/
def oneMines : List (Action 2) :=
  [(0, .transactionMessage (sampleAmbient 0) claim1), (0, .startMining (sampleAmbient 0)),
    (0, .finishMining (sampleAmbient 0) 1), (1, .blockMessage (sampleAmbient 0) block1)]

/-- The first node receives the second one's block while it mines its own. -/
def receivesWhileMining : List (Action 2) :=
  [(0, .transactionMessage (sampleAmbient 0) claim1),
    (1, .transactionMessage (sampleAmbient 0) claim2),
    (0, .startMining (sampleAmbient 0)), (1, .startMining (sampleAmbient 0)),
    (1, .finishMining (sampleAmbient 0) 1), (0, .blockMessage (sampleAmbient 0) block2),
    (0, .finishMining (sampleAmbient 0) 1)]

section Miners

variable {net : Network 2} {i : Fin 2} {amb : Ambient} {polls : Nat} {block : Block}
  {late : Block → Transaction → Bool}

theorem eq_of_applied {order : UTXOOrder} {block' : Block}
    (mined : (net.nodes i).minedBlock minersLib polls = some block)
    (applied : (net.nodes i).applied minersLib (.finishMining amb polls) = some (order, block')) :
    block' = block := by
  have mined' := Node.minedBlock_of_applied applied
  rw [mined] at mined'
  exact (Option.some.inj mined').symm

theorem sameOutcomes_mined (block : Block)
    (mined : (net.nodes i).minedBlock minersLib polls = some block)
    (outcomes : ∀ t ∈ block.transactions, t.output.expiration < amb.now ↔ late block t = true) :
    SameOutcomes minersLib late net (i, .finishMining amb polls) := by
  intro order block' applied
  rw [eq_of_applied mined applied]
  exact outcomes

theorem minesValid_mined (block : Block)
    (mined : (net.nodes i).minedBlock minersLib polls = some block)
    (valid : validateBlock minersLib amb (net.nodes i).utxoSet block = .ok ()) :
    MinesValid minersLib net (i, .finishMining amb polls) := by
  intro order block' applied
  rw [eq_of_applied mined applied]
  exact valid

end Miners

theorem minedBlock_oneMines :
    ((Run.run (step minersLib) miners (oneMines.take 2)).nodes 0).minedBlock minersLib 1 =
      some block1 := by
  decide +kernel

theorem sameOutcomes_oneMines :
    Run.Always (step minersLib) (SameOutcomes minersLib fun _ _ => false) miners oneMines := by
  refine ⟨trivial, trivial, ?_, ?_, trivial⟩
  · exact sameOutcomes_mined block1 minedBlock_oneMines (by decide +kernel)
  · show ∀ t ∈ block1.transactions, t.output.expiration < 0 ↔ false = true
    decide +kernel

theorem minesValid_oneMines :
    Run.Always (step minersLib) (MinesValid minersLib) miners oneMines := by
  refine ⟨trivial, trivial, ?_, trivial, trivial⟩
  exact minesValid_mined block1 minedBlock_oneMines (by decide +kernel)

/-- With one miner the nodes agree. -/
theorem agree_oneMines : (Run.run (step minersLib) miners oneMines).Agree := by
  refine agree_of_common_order minersLib _ _ oneMines (fun _ _ => false) [block1] ?_ ?_ ?_ ?_
  · exact sameOutcomes_oneMines
  · exact minesValid_oneMines
  · decide +kernel
  · decide +kernel

/-- Two miners that register one name for two owners: both blocks are delivered, both are refused,
and the nodes disagree on who owns the name. -/
theorem bothMine_disagree :
    ¬ AgreesWhenQuiet minersLib (fun _ => .sorted) (fun _ => sampleStore) bothMine := by
  intro agrees
  have outcomes : Run.Always (step minersLib) (SameOutcomes minersLib fun _ _ => false) miners
      bothMine := by
    refine ⟨trivial, trivial, trivial, trivial, ?_, ?_, ?_, ?_, trivial⟩
    · exact sameOutcomes_mined block1 (by decide +kernel) (by decide +kernel)
    · exact sameOutcomes_mined block2 (by decide +kernel) (by decide +kernel)
    · show ∀ t ∈ block1.transactions, t.output.expiration < 0 ↔ false = true
      decide +kernel
    · show ∀ t ∈ block2.transactions, t.output.expiration < 0 ↔ false = true
      decide +kernel
  have same := agrees _ outcomes (by decide +kernel) 0 1
  have owners := congrArg (fun v : View => v.utxoSet.get (str "example.com")) same
  revert owners
  decide +kernel

end Network

end Peerster
