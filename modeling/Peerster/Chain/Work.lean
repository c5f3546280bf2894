import Peerster.Chain.SelfMined

/-!
# Proof of work in the store

`peer.Configuration` has a difficulty `PowDiff` that nothing reads: `mineBlock` uses a constant, and
`validateBlock` leaves the proof-of-work check as a comment, so a received block is stored under
whatever hash it carries.  The store holds proven blocks only as long as received blocks carry their
own hash and meet the configured target, and mining is done for a target that is no easier.
-/

namespace Peerster

/-- `computeTarget` of a configured difficulty, an `int` in two's complement. -/
def configuredTarget (powDiff : Int) : Nat := computeTarget (powDiff % 2 ^ 64).toNat

/-- The hash that a block carries is its own and meets the target. -/
def Block.Proven (lib : Stdlib) (target : Nat) (block : Block) : Prop :=
  block.hash = computeBlockHash lib block ∧ meetsTarget block.hash target = true

/-- Every stored block but genesis is stored under the hex of its own hash, which meets the target.
`LastBlockKey` holds no block. -/
def WorkEnforced (lib : Stdlib) (target : Nat) (bcStore : Store) : Prop :=
  ∀ key block, key ≠ lastBlockKey → blockAt lib bcStore key = some block →
    block ≠ Node.genesisBlock lib →
      key = hexEncode (computeBlockHash lib block) ∧
        meetsTarget (computeBlockHash lib block) target = true

/-- The JSON text of a block decodes to the block. -/
def RoundTrips (lib : Stdlib) (block : Block) : Prop :=
  ∀ data, lib.marshalBlock block = some data → data ≠ [] ∧ lib.unmarshalBlock data = some block

theorem meetsTarget_mono {hash : Bytes} {target target' : Nat} (le : target ≤ target')
    (meets : meetsTarget hash target = true) : meetsTarget hash target' = true := by
  simp only [meetsTarget, decide_eq_true_eq] at meets ⊢
  omega

namespace Node

variable {lib : Stdlib} {target : Nat}

/-- A block found after one is stored was stored before, or is the new one under its own key. -/
theorem blockAt_storeBlock {s : Store} {block found : Block} {key : GoString}
    (roundTrips : RoundTrips lib block) (off : key ≠ lastBlockKey)
    (here : blockAt lib (storeBlock lib s block) key = some found) :
    key = hexEncode block.hash ∧ found = block ∨ blockAt lib s key = some found := by
  by_cases same : key = hexEncode block.hash
  · subst same
    by_cases fits : s.takes (hexEncode block.hash) = true
    · have stored := storeBlock_data_self lib fits off
      cases encoded : lib.marshalBlock block with
      | none =>
          rw [encoded] at stored
          rw [blockAt_of_empty stored] at here
          cases here
      | some data =>
          rw [encoded] at stored
          obtain ⟨filled, decoded⟩ := roundTrips data encoded
          rw [blockAt_of_data stored filled, Option.getD_some, decoded] at here
          exact .inl ⟨rfl, (Option.some.inj here).symm⟩
    · have kept := Store.get_congr (storeBlock_backend lib s block)
        (storeBlock_data_refused lib fits off)
      rw [blockAt_congr kept] at here
      exact .inr here
  · rw [blockAt_storeBlock_of_ne same off] at here
    exact .inr here

theorem workEnforced_storeBlock {s : Store} {block : Block} (enforced : WorkEnforced lib target s)
    (roundTrips : RoundTrips lib block)
    (proven : block ≠ genesisBlock lib → block.Proven lib target) :
    WorkEnforced lib target (storeBlock lib s block) := by
  intro key found off here other
  rcases blockAt_storeBlock roundTrips off here with ⟨rfl, rfl⟩ | old
  · obtain ⟨hash, meets⟩ := proven other
    rw [hash] at meets ⊢
    exact ⟨rfl, meets⟩
  · exact enforced key found off old other

/-- A received block that is appended carries its own hash and meets the target; a block is mined
only if the target of `mineBlock` is no easier. -/
def ProvesWork (lib : Stdlib) (target : Nat) (n : Node) (e : Event) : Prop :=
  match e with
  | .blockMessage _ block => n.appended lib e = some block → block.Proven lib target
  | .finishMining _ _ => n.appended lib e ≠ none → computeTarget 0x1f111111 ≤ target
  | .transactionMessage _ _ => True
  | .startMining _ => True

theorem ProvesWork.appended {n : Node} {e : Event} {block : Block}
    (proves : n.ProvesWork lib target e) (appends : n.appended lib e = some block) :
    block.Proven lib target := by
  obtain ⟨order, applies, -⟩ := appended_eq_some_iff.mp appends
  cases e with
  | transactionMessage amb tx => cases applies
  | startMining amb => cases applies
  | blockMessage amb block' =>
      obtain ⟨rfl, -⟩ := validateBlock_of_applied applies
      exact proves appends
  | finishMining amb polls =>
      obtain ⟨candidate, challenge, -, rfl, meets, -⟩ :=
        minedBlock_eq_some (minedBlock_of_applied applies)
      have easier := proves (by rw [appends]; exact Option.some_ne_none _)
      exact ⟨rfl, meetsTarget_mono easier meets⟩

/-- **Proof of work.**  In every run whose steps prove their work, every block in the store but
genesis is stored under its own hash, which meets the configured target. -/
theorem workEnforced_of_proves (lib : Stdlib) (powDiff : Int) (order : UTXOOrder) (bcStore : Store)
    (es : List Event) (vacant : WorkEnforced lib (configuredTarget powDiff) bcStore)
    (roundTrips : ∀ block ∈ genesisBlock lib ::
      appendedBlocks lib (start lib order (newPeer bcStore)) es, RoundTrips lib block)
    (proves : Run.Always (step lib) (ProvesWork lib (configuredTarget powDiff))
      (start lib order (newPeer bcStore)) es) :
    WorkEnforced lib (configuredTarget powDiff) (afterEvents lib order bcStore es).bcStore := by
  have decode := Run.always_of_collect fun block mem =>
    roundTrips block (List.mem_cons_of_mem _ mem)
  refine (proves.and decode).run_invariant
    (I := fun n : Node => WorkEnforced lib (configuredTarget powDiff) n.bcStore) ?_ ?_
  · rw [start_bcStore]
    exact workEnforced_storeBlock vacant (roundTrips _ List.mem_cons_self)
      fun other => (other rfl).elim
  · intro n e enforced conditions
    rw [step_bcStore]
    cases appends : n.appended lib e with
    | none => exact enforced
    | some block =>
        refine workEnforced_storeBlock enforced (conditions.2 block ?_) fun _ =>
          conditions.1.appended appends
        rw [appends]
        exact List.mem_singleton_self block

theorem workEnforced_sampleStore (lib : Stdlib) (target : Nat) :
    WorkEnforced lib target sampleStore := by
  intro key block off found
  cases found

/-- A received block that proves its work. -/
theorem workEnforced_received :
    WorkEnforced minersLib (configuredTarget 0x1f0e1111)
      (afterEvents minersLib .sorted sampleStore (deliver [block1])).bcStore := by
  have appended : genesisBlock minersLib ::
      appendedBlocks minersLib (start minersLib .sorted (newPeer sampleStore)) (deliver [block1]) =
        [sampleGenesis, block1] := by
    decide +kernel
  refine workEnforced_of_proves minersLib 0x1f0e1111 .sorted sampleStore (deliver [block1])
    (workEnforced_sampleStore _ _) ?_ ⟨fun _ => ⟨by decide +kernel, by decide +kernel⟩, trivial⟩
  intro block mem data encoded
  rw [appended] at mem
  obtain ⟨data', text, filled, decoded⟩ := faithful_minersLib.decodes block mem
  cases Option.some.inj (encoded.symm.trans text)
  exact ⟨filled, decoded⟩

/-- A received block is stored under the hash it carries, which is not its own. -/
theorem carriedHash_stored :
    let block :=
      sampleBlock 1 [sampleTx .nameNew "tx1" .zero (sampleUTXO "example.com" "owner1" 10)]
    ¬ WorkEnforced (sampleLib [block]) (configuredTarget 0x1f0e1111)
      (afterEvents (sampleLib [block]) .sorted sampleStore (deliver [block])).bcStore := by
  intro block enforced
  have found := enforced (hexEncode [1]) block (by decide +kernel) (by decide +kernel)
    (by decide +kernel)
  revert found
  decide +kernel

end Node

end Peerster
