import Peerster.Chain.Application

/-!
# What a block leaves of the names

A block that is applied leaves a name with what the last transaction that touches it makes of it,
and every other name as it was (`addBlockToBlockchain_lastTouch`).  Registrations and updates that
`validateBlock` accepts touch different names, those that are free and those that are taken, so they
drop no name and shorten none (`addBlockToBlockchain_keeps`).
-/

namespace Peerster

open LastTouch

namespace Transaction

/-- The names that a transaction touches: the one it registers, or the two of an input it consumes
and an output. -/
def Touches (t : Transaction) (d : GoString) : Prop :=
  match t.type with
  | .nameNew => t.output.domainName = d
  | .nameFirstUpdate | .nameUpdate => t.input.domainName = d ∨ t.output.domainName = d
  | .other _ => False

/-- A transaction leaves the names alone that it does not touch. -/
theorem effect_eq_none_iff {t : Transaction} {d : GoString} :
    t.effect d = none ↔ ¬ t.Touches d := by
  unfold effect Touches
  cases t.type with
  | nameNew => by_cases output : t.output.domainName = d <;> simp [output]
  | nameFirstUpdate =>
      by_cases output : t.output.domainName = d <;> by_cases input : t.input.domainName = d <;>
        simp [output, input]
  | nameUpdate =>
      by_cases output : t.output.domainName = d <;> by_cases input : t.input.domainName = d <;>
        simp [output, input]
  | other name => simp

/-- A name that is touched gets the output, or is given up. -/
theorem effect_of_touches {t : Transaction} {d : GoString} (touches : t.Touches d) :
    t.effect d = some (if t.output.domainName = d then some t.output else none) := by
  unfold Touches at touches
  unfold effect
  cases type : t.type with
  | nameNew =>
      simp only [type] at touches
      simp [touches]
  | nameFirstUpdate =>
      simp only [type] at touches
      by_cases output : t.output.domainName = d
      · simp [output]
      · simp [output, touches.resolve_right output]
  | nameUpdate =>
      simp only [type] at touches
      by_cases output : t.output.domainName = d
      · simp [output]
      · simp [output, touches.resolve_right output]
  | other name => simp [type] at touches

end Transaction

theorem lastTouch_of_untouched {ts : List Transaction} {d : GoString}
    (untouched : ∀ t ∈ ts, ¬ t.Touches d) : lastTouch Transaction.effect ts d = none :=
  lastTouch_eq_none.mpr fun t mem => Transaction.effect_eq_none_iff.mpr (untouched t mem)

theorem lastTouch_of_touches {before later : List Transaction} {t : Transaction} {d : GoString}
    (touches : t.Touches d) (untouched : ∀ t' ∈ later, ¬ t'.Touches d) :
    lastTouch Transaction.effect (before ++ t :: later) d =
      some (if t.output.domainName = d then some t.output else none) :=
  lastTouch_eq_some.mpr ⟨before, t, later, rfl, Transaction.effect_of_touches touches,
    fun t' mem => Transaction.effect_eq_none_iff.mpr (untouched t' mem)⟩

/-- A list of transactions leaves a name alone, or one of them is the last to touch it. -/
theorem untouched_or_lastTouch (ts : List Transaction) (d : GoString) :
    (∀ t ∈ ts, ¬ t.Touches d) ∨
      ∃ before t later, ts = before ++ t :: later ∧ t.Touches d ∧ ∀ t' ∈ later, ¬ t'.Touches d := by
  cases touched : lastTouch Transaction.effect ts d with
  | none =>
      left
      intro t mem
      exact Transaction.effect_eq_none_iff.mp (lastTouch_eq_none.mp touched t mem)
  | some entry =>
      right
      obtain ⟨before, t, later, split, effective, untouched⟩ := lastTouch_eq_some.mp touched
      refine ⟨before, t, later, split, ?_, fun t' mem => ?_⟩
      · by_contra aside
        rw [Transaction.effect_eq_none_iff.mpr aside] at effective
        cases effective
      · exact Transaction.effect_eq_none_iff.mp (untouched t' mem)

namespace Node

variable {lib : Stdlib} {order : UTXOOrder} {n : Node} {block : Block}

theorem addBlockToBlockchain_get (notGenesis : block.nonce ≠ 0)
    (ok : (addBlockToBlockchain lib order n block).2 = .ok) (d : GoString) :
    (addBlockToBlockchain lib order n block).1.utxoSet.get d =
      (lastTouch Transaction.effect block.transactions d).getD (n.utxoSet.get d) := by
  have applied := (addBlockToBlockchain_ok_iff.mp ok).1
  rw [addBlockToBlockchain_utxoSet]
  unfold applyBlock at applied ⊢
  rw [if_neg notGenesis] at applied ⊢
  exact applyTransactions_get applied d

theorem addBlockToBlockchain_untouched (notGenesis : block.nonce ≠ 0)
    (ok : (addBlockToBlockchain lib order n block).2 = .ok) {d : GoString}
    (untouched : ∀ t ∈ block.transactions, ¬ t.Touches d) :
    (addBlockToBlockchain lib order n block).1.utxoSet.get d = n.utxoSet.get d := by
  rw [addBlockToBlockchain_get notGenesis ok, lastTouch_of_untouched untouched]
  rfl

theorem addBlockToBlockchain_touched (notGenesis : block.nonce ≠ 0)
    (ok : (addBlockToBlockchain lib order n block).2 = .ok) {before later : List Transaction}
    {t : Transaction} {d : GoString} (split : block.transactions = before ++ t :: later)
    (touches : t.Touches d) (untouched : ∀ t' ∈ later, ¬ t'.Touches d) :
    (addBlockToBlockchain lib order n block).1.utxoSet.get d =
      if t.output.domainName = d then some t.output else none := by
  rw [addBlockToBlockchain_get notGenesis ok, split, lastTouch_of_touches touches untouched]
  rfl

/-- **Last touch wins**, and what is not touched stays. -/
theorem addBlockToBlockchain_lastTouch (lib : Stdlib) (order : UTXOOrder) (n : Node) (block : Block)
    (notGenesis : block.nonce ≠ 0) (ok : (addBlockToBlockchain lib order n block).2 = .ok)
    (d : GoString) :
    ((∀ t ∈ block.transactions, ¬ t.Touches d) →
        (addBlockToBlockchain lib order n block).1.utxoSet.get d = n.utxoSet.get d) ∧
      ∀ before t later, block.transactions = before ++ t :: later → t.Touches d →
        (∀ t' ∈ later, ¬ t'.Touches d) →
        (addBlockToBlockchain lib order n block).1.utxoSet.get d =
          if t.output.domainName = d then some t.output else none := by
  constructor
  · intro untouched
    exact addBlockToBlockchain_untouched notGenesis ok untouched
  · intro before t later split touches untouched
    exact addBlockToBlockchain_touched notGenesis ok split touches untouched

/-- A block that registers a hidden name and reveals it. -/
def revelation : Block :=
  sampleBlock 1
    [sampleTx .nameNew "tx1" .zero (sampleUTXO "hidden" "owner1" 10),
      sampleTx .nameFirstUpdate "tx2" (sampleUTXO "hidden" "owner1" 10)
        (sampleUTXO "example.com" "owner1" 20)]

theorem lastTouch_reveal :
    (addBlockToBlockchain (sampleLib [revelation]) .sorted (newPeer sampleStore)
      revelation).1.utxoSet.get (str "hidden") = none := by
  have gone := (addBlockToBlockchain_lastTouch (sampleLib [revelation]) .sorted
    (newPeer sampleStore) revelation (by decide) (by decide +kernel) (str "hidden")).2 [_] _ [] rfl
    (.inl rfl) (by simp)
  rw [gone]
  exact if_neg (by decide +kernel)

end Node

/-! ## Registrations and updates -/

section Kept

variable {now : Time} {s : UTXOSet} {t : Transaction} {d : GoString}

theorem Transaction.Valid.free (valid : t.Valid now s) (type : t.type = .nameNew) :
    s.get t.output.domainName = none := by
  obtain ⟨-, -, check⟩ := valid
  simp only [type] at check
  exact check.2

theorem Transaction.Valid.taken (valid : t.Valid now s) (type : t.type = .nameUpdate) :
    t.input.domainName = t.output.domainName ∧
      ∃ u, s.get t.output.domainName = some u ∧ u.expiration ≤ t.output.expiration := by
  obtain ⟨-, -, check⟩ := valid
  simp only [type] at check
  obtain ⟨same, u, present, -, longer⟩ := check
  exact ⟨same.symm, u, same ▸ present, longer⟩

/-- A valid registration or update touches the name of its output alone. -/
theorem Transaction.Valid.touches_iff (valid : t.Valid now s)
    (kind : t.type = .nameNew ∨ t.type = .nameUpdate) :
    t.Touches d ↔ t.output.domainName = d := by
  unfold Touches
  rcases kind with type | type
  · simp only [type]
  · simp only [type, (valid.taken type).1, or_self]

/-- What a valid registration or update writes is a new name, or a record of a name that is there,
for no shorter time. -/
theorem Transaction.Valid.keeps (valid : t.Valid now s)
    (kind : t.type = .nameNew ∨ t.type = .nameUpdate) {u : UTXO}
    (present : s.get t.output.domainName = some u) : u.expiration ≤ t.output.expiration := by
  rcases kind with type | type
  · rw [valid.free type] at present
    cases present
  · obtain ⟨-, u', present', longer⟩ := valid.taken type
    rw [present] at present'
    cases present'
    exact longer

end Kept

namespace Node

/-- After a block of valid registrations and updates, every name is as it was and not registered, or
has the output of a transaction of the block. -/
theorem addBlockToBlockchain_kept_or_written (lib : Stdlib) (order : UTXOOrder) {n : Node}
    {block : Block} {now : Time} (valid : ∀ t ∈ block.transactions, t.Valid now n.utxoSet)
    (kinds : ∀ t ∈ block.transactions, t.type = .nameNew ∨ t.type = .nameUpdate)
    (notGenesis : block.nonce ≠ 0) (ok : (addBlockToBlockchain lib order n block).2 = .ok)
    (d : GoString) :
    (addBlockToBlockchain lib order n block).1.utxoSet.get d = n.utxoSet.get d ∧
        (∀ t ∈ block.transactions, t.output.domainName ≠ d) ∨
      ∃ t ∈ block.transactions, t.output.domainName = d ∧
        (addBlockToBlockchain lib order n block).1.utxoSet.get d = some t.output := by
  rcases untouched_or_lastTouch block.transactions d with untouched |
    ⟨before, t, later, split, touches, untouched⟩
  · refine .inl ⟨addBlockToBlockchain_untouched notGenesis ok untouched,
      fun t mem name => untouched t mem ?_⟩
    exact ((valid t mem).touches_iff (kinds t mem)).mpr name
  · have mem : t ∈ block.transactions := by simp [split]
    have name := ((valid t mem).touches_iff (kinds t mem)).mp touches
    refine .inr ⟨t, mem, name, ?_⟩
    rw [addBlockToBlockchain_touched notGenesis ok split touches untouched, if_pos name]

/-- **Registrations and updates keep every name**, for no shorter time than before, and the names
that are new are those registered. -/
theorem addBlockToBlockchain_keeps (lib : Stdlib) (amb : Ambient) (order : UTXOOrder) (n : Node)
    (block : Block) (keyed : Keyed n.utxoSet)
    (accepted : validateBlock lib amb n.utxoSet block = .ok ())
    (kinds : ∀ t ∈ block.transactions, t.type = .nameNew ∨ t.type = .nameUpdate)
    (notGenesis : block.nonce ≠ 0) (ok : (addBlockToBlockchain lib order n block).2 = .ok) :
    (∀ d u, n.utxoSet.get d = some u → ∃ u',
        (addBlockToBlockchain lib order n block).1.utxoSet.get d = some u' ∧
          u.expiration ≤ u'.expiration) ∧
      ∀ d, (addBlockToBlockchain lib order n block).1.utxoSet.get d ≠ none ∧
          n.utxoSet.get d = none ↔
        ∃ t ∈ block.transactions, t.type = .nameNew ∧ t.output.domainName = d := by
  have valid : ∀ t ∈ block.transactions, t.Valid amb.now n.utxoSet := fun t mem =>
    (validateTransaction_ok_iff keyed).mp ((validateBlock_ok_iff.mp accepted).2 t mem)
  have after := addBlockToBlockchain_kept_or_written lib order valid kinds notGenesis ok
  constructor
  · intro d u present
    rcases after d with ⟨same, -⟩ | ⟨t, mem, rfl, written⟩
    · exact ⟨u, same.trans present, le_rfl⟩
    · exact ⟨t.output, written, (valid t mem).keeps (kinds t mem) present⟩
  · intro d
    constructor
    · rintro ⟨there, free⟩
      rcases after d with ⟨same, -⟩ | ⟨t, mem, rfl, -⟩
      · exact (there (same.trans free)).elim
      · rcases kinds t mem with type | type
        · exact ⟨t, mem, type, rfl⟩
        · obtain ⟨-, u, present, -⟩ := (valid t mem).taken type
          rw [free] at present
          cases present
    · rintro ⟨t, mem, type, rfl⟩
      refine ⟨?_, (valid t mem).free type⟩
      rcases after t.output.domainName with ⟨-, unregistered⟩ | ⟨t', -, -, written⟩
      · exact (unregistered t mem rfl).elim
      · rw [written]
        exact Option.some_ne_none _

/-- A block that registers a name and updates it once it is there. -/
def growth : Block :=
  sampleBlock 2
    [sampleTx .nameNew "tx2" .zero (sampleUTXO "other.com" "owner2" 20),
      sampleTx .nameUpdate "tx3" (sampleUTXO "example.com" "owner1" 10)
        (sampleUTXO "example.com" "owner1" 30)]

theorem keeps_growth :
    let n := afterEvents (sampleLib [registration, growth]) .sorted sampleStore
      [.blockMessage (sampleAmbient 0) registration]
    ∃ u', (addBlockToBlockchain (sampleLib [registration, growth]) .sorted n growth).1.utxoSet.get
        (str "example.com") = some u' ∧ 10 ≤ u'.expiration := by
  intro n
  exact (addBlockToBlockchain_keeps (sampleLib [registration, growth]) (sampleAmbient 0) .sorted n
    growth (afterEvents_keyed _ _ _ _) (by decide +kernel) (by decide) (by decide)
    (by decide +kernel)).1 (str "example.com") (sampleUTXO "example.com" "owner1" 10)
    (by decide +kernel)

end Node

end Peerster
