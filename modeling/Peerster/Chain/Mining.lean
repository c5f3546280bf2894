import Peerster.Chain.Node
import Mathlib.Algebra.GroupWithZero.Nat
import Mathlib.Order.Bounds.Basic

/-!
# Proof of work

`mineBlock` and the functions under it.  The loop writes each challenge and its hash into the block
it was given, but the hash reads only what the candidate brought and the challenge, so the loop is a
search for the first challenge that solves the candidate (`mineLoop_eq_find`).
-/

namespace Peerster

/-! ## The search -/

/-- The candidate meets the target with a challenge. -/
def Block.solvedBy (lib : Stdlib) (target : Nat) (block : Block) (challenge : Nat) : Bool :=
  meetsTarget (block.withChallenge lib challenge).hash target

section Search

variable {lib : Stdlib} {target : Nat} {block mined : Block}

@[simp] theorem withChallenge_withChallenge (challenge challenge' : Int) :
    (block.withChallenge lib challenge).withChallenge lib challenge' =
      block.withChallenge lib challenge' := rfl

/-- What the loop has written into the block has no effect on the rounds to come. -/
theorem solvedBy_withChallenge (challenge : Int) (challenge' : Nat) :
    (block.withChallenge lib challenge).solvedBy lib target challenge' =
      block.solvedBy lib target challenge' := rfl

theorem mineLoop_succ (polls challenge : Nat) :
    mineLoop lib target (polls + 1) challenge block =
      if block.solvedBy lib target challenge then some (block.withChallenge lib challenge)
      else mineLoop lib target polls (challenge + 1) (block.withChallenge lib challenge) := rfl

/-- The loop returns the candidate with the first challenge that solves it. -/
theorem mineLoop_eq_find (polls challenge : Nat) :
    mineLoop lib target polls challenge block =
      ((List.range' challenge polls).find? (block.solvedBy lib target)).map
        fun (c : Nat) => block.withChallenge lib c := by
  induction polls generalizing challenge block with
  | zero => rfl
  | succ polls ih =>
      rw [mineLoop_succ, List.range'_succ, List.find?_cons]
      cases solved : block.solvedBy lib target challenge with
      | true => rfl
      | false =>
          have later : (block.withChallenge lib challenge).solvedBy lib target =
              block.solvedBy lib target := funext (solvedBy_withChallenge challenge)
          simp only [Bool.false_eq_true, if_false, ih, later, withChallenge_withChallenge]

/-- Mining from challenge 0 succeeds with a challenge exactly when it is the least solution and
tried in time. -/
theorem mineLoop_eq_some_iff {polls : Nat} :
    mineLoop lib target polls 0 block = some mined ↔
      ∃ challenge < polls, IsLeast {c | block.solvedBy lib target c = true} challenge ∧
        block.withChallenge lib challenge = mined := by
  rw [mineLoop_eq_find, Option.map_eq_some_iff]
  refine exists_congr fun challenge => ?_
  rw [List.find?_range'_eq_some, List.mem_range'_1, ← and_assoc (a := challenge < polls)]
  refine and_congr_left fun _ => ?_
  constructor
  · rintro ⟨solved, inside, earlier⟩
    refine ⟨by omega, solved, fun c solved' => ?_⟩
    refine Nat.le_of_not_lt fun lt => ?_
    have unsolved := earlier c (Nat.zero_le c) lt
    rw [solved'] at unsolved
    cases unsolved
  · rintro ⟨inside, solved, least⟩
    refine ⟨solved, by omega, fun c _ lt => ?_⟩
    cases solved' : block.solvedBy lib target c with
    | false => rfl
    | true => exact absurd (least solved') (by omega)

/-- A candidate with a solution is mined, however long the loop is left running. -/
theorem exists_mineLoop_eq_some (solvable : ∃ c, block.solvedBy lib target c = true) :
    ∃ enough, ∀ polls ≥ enough, ∃ mined, mineLoop lib target polls 0 block = some mined := by
  refine ⟨Nat.find solvable + 1, fun polls enough => ?_⟩
  refine ⟨block.withChallenge lib (Nat.find solvable : Nat), mineLoop_eq_some_iff.mpr ?_⟩
  refine ⟨Nat.find solvable, enough, ⟨Nat.find_spec solvable, fun c solved => ?_⟩, rfl⟩
  exact Nat.find_min' solvable solved

end Search

/-- **Mining returns the first solution.**  A block mined within any number of polls carries its own
hash, which meets the target, the least natural challenge that does, and what else the candidate
brought; and a candidate with a solution is mined unless mining is stopped before. -/
theorem mineBlock_first_solution (lib : Stdlib) (block : Block) :
    (∀ polls mined, mineBlock lib polls block = some mined →
        mined.hash = computeBlockHash lib mined ∧
        meetsTarget mined.hash (computeTarget 0x1f111111) = true ∧
        (∃ challenge : Nat, mined.challenge = challenge ∧
          IsLeast {c : Nat | meetsTarget (computeBlockHash lib { block with challenge := c })
            (computeTarget 0x1f111111) = true} challenge) ∧
        mined.prevBlockHash = block.prevBlockHash ∧ mined.nonce = block.nonce ∧
        mined.transactions = block.transactions) ∧
      ((∃ c : Nat, meetsTarget (computeBlockHash lib { block with challenge := c })
          (computeTarget 0x1f111111) = true) →
        ∃ enough, ∀ polls ≥ enough, ∃ mined, mineBlock lib polls block = some mined) := by
  constructor
  · intro polls mined found
    obtain ⟨challenge, -, least, rfl⟩ := mineLoop_eq_some_iff.mp found
    exact ⟨rfl, least.1, ⟨challenge, rfl, least⟩, rfl, rfl, rfl⟩
  · intro solvable
    exact exists_mineLoop_eq_some solvable

/-! ## Blocks without a hash -/

theorem marshalTransactions_isSome_iff {lib : Stdlib} {ts : List Transaction} :
    (marshalTransactions lib ts).isSome = true ↔ ∀ t ∈ ts, lib.marshalTransaction t ≠ none := by
  induction ts with
  | nil => simp [marshalTransactions]
  | cons t ts ih =>
      simp only [marshalTransactions, Option.bind_eq_bind, Option.pure_def, List.mem_cons,
        forall_eq_or_imp, ← ih]
      cases lib.marshalTransaction t <;> cases marshalTransactions lib ts <;> simp

/-- There is a preimage exactly when every transaction can be encoded. -/
theorem blockPreimage_isSome_iff {lib : Stdlib} {block : Block} :
    (blockPreimage lib block).isSome = true ↔
      ∀ t ∈ block.transactions, lib.marshalTransaction t ≠ none := by
  rw [blockPreimage, Option.isSome_map, marshalTransactions_isSome_iff]

/-- The empty hash of a block without a preimage is the number 0 and meets every target. -/
theorem solvedBy_of_no_preimage {lib : Stdlib} {target challenge : Nat} {block : Block}
    (failed : blockPreimage lib { block with challenge := challenge } = none) :
    block.solvedBy lib target challenge = true := by
  have empty : (block.withChallenge lib challenge).hash = [] := by
    show computeBlockHash lib { block with challenge := challenge } = []
    rw [computeBlockHash, failed]
  rw [Block.solvedBy, empty]
  exact decide_eq_true (Nat.zero_le target)

/-- **Failed hashes as proof of work.**  With any target, every block mined from a candidate has the
SHA-256 of its preimage as its hash exactly when each transaction of the candidate can be
encoded. -/
theorem mined_hashes_iff (lib : Stdlib) (target : Nat) (block : Block) :
    (∀ polls mined, mineLoop lib target polls 0 block = some mined →
        ∃ data, blockPreimage lib mined = some data ∧ mined.hash = (lib.sha256 data).1) ↔
      ∀ t ∈ block.transactions, lib.marshalTransaction t ≠ none := by
  constructor
  · intro hashes
    have encodes : (blockPreimage lib { block with challenge := 0 }).isSome = true ↔
        ∀ t ∈ block.transactions, lib.marshalTransaction t ≠ none := blockPreimage_isSome_iff
    rw [← encodes, Option.isSome_iff_ne_none]
    intro failed
    have first : mineLoop lib target 1 0 block = some (block.withChallenge lib 0) := by
      rw [mineLoop_succ, solvedBy_of_no_preimage failed]
      rfl
    obtain ⟨data, preimage, -⟩ := hashes 1 _ first
    have same : blockPreimage lib (block.withChallenge lib 0) =
        blockPreimage lib { block with challenge := 0 } := rfl
    rw [same, failed] at preimage
    cases preimage
  · intro encoded polls mined found
    obtain ⟨challenge, -, -, rfl⟩ := mineLoop_eq_some_iff.mp found
    have some : (blockPreimage lib { block with challenge := challenge }).isSome = true :=
      blockPreimage_isSome_iff.mpr encoded
    obtain ⟨data, preimage⟩ := Option.isSome_iff_exists.mp some
    refine ⟨data, preimage, ?_⟩
    show computeBlockHash lib { block with challenge := challenge } = (lib.sha256 data).1
    rw [computeBlockHash, preimage]

/-- The encoding of JSON, which has no text for a time beyond the year 9999. -/
def yearsLib : Stdlib where
  sha256 _ := genesisHash
  marshalTransaction tx :=
    if tx.output.expiration < 253402300800000000000 then some [123, 125] else none
  marshalBlock _ := none
  unmarshalBlock _ := none

/-- A candidate whose one registration expires at the start of the year 10000. -/
def lateCandidate : Block :=
  ⟨[], genesisHash.1, 2, 0,
    [sampleTx .nameNew "tx1" .zero (sampleUTXO "example.com" "owner1" 253402300800000000000)]⟩

/-- The first attempt on a candidate that cannot be encoded is taken for a solution. -/
theorem late_candidate_mined_without_hash :
    mineBlock yearsLib 1 lateCandidate = some lateCandidate ∧
      blockPreimage yearsLib lateCandidate = none ∧ lateCandidate.hash = [] := by
  decide +kernel

/-! ## The compact target -/

/-- The number that an exponent and a coefficient stand for. -/
def compactTarget (exponent coefficient : Nat) : Nat :=
  if exponent > 3 then coefficient * 256 ^ (exponent - 3) else coefficient / 256 ^ (3 - exponent)

/-- What `computeTarget` returns: 32 bytes of shift are none. -/
theorem computeTarget_eq (bits : UInt32) :
    computeTarget bits.toNat =
      if bits.toNat >>> 24 > 3 then bits.toNat % 2 ^ 24 * 256 ^ ((bits.toNat >>> 24 - 3) % 32)
      else bits.toNat % 2 ^ 24 / 256 ^ (3 - bits.toNat >>> 24) := by
  have range : bits.toNat >>> 24 < 256 := by
    have := bits.toNat_lt
    rw [Nat.shiftRight_eq_div_pow]
    omega
  have exponent : (UInt8.ofNat (bits.toNat >>> 24)).toNat = bits.toNat >>> 24 :=
    UInt8.toNat_ofNat_of_lt' range
  have coefficient : bits.toNat &&& 0xFFFFFF = bits.toNat % 2 ^ 24 :=
    Nat.and_two_pow_sub_one_eq_mod _ 24
  have bytes : ∀ k : Nat, 2 ^ (k * 8) = 256 ^ k := fun k => by rw [Nat.mul_comm, Nat.pow_mul]
  have small : UInt8.ofNat (bits.toNat >>> 24) ≤ 3 ↔ bits.toNat >>> 24 ≤ 3 := by
    rw [UInt8.le_iff_toNat_le, exponent]
    rfl
  simp only [computeTarget, coefficient, small]
  by_cases le : bits.toNat >>> 24 ≤ 3
  · have shift : (((3 : UInt8) - UInt8.ofNat (bits.toNat >>> 24)) * 8).toNat =
        (3 - bits.toNat >>> 24) * 8 := by
      rw [UInt8.toNat_mul, UInt8.toNat_sub_of_le _ _ (small.mpr le), exponent]
      show (3 - bits.toNat >>> 24) * 8 % 256 = _
      omega
    rw [if_pos le, if_neg (by omega), shift, Nat.shiftRight_eq_div_pow, bytes]
  · have le' : (3 : UInt8) ≤ UInt8.ofNat (bits.toNat >>> 24) := by
      rw [UInt8.le_iff_toNat_le, exponent]
      show 3 ≤ _
      omega
    have shift : ((UInt8.ofNat (bits.toNat >>> 24) - 3) * 8).toNat =
        (bits.toNat >>> 24 - 3) % 32 * 8 := by
      rw [UInt8.toNat_mul, UInt8.toNat_sub_of_le _ _ le', exponent]
      show (bits.toNat >>> 24 - 3) * 8 % 256 = _
      omega
    rw [if_neg le, if_pos (by omega), shift, Nat.shiftLeft_eq, bytes]

/-- **The compact difficulty** is decoded exactly when the exponent is below 35 or the coefficient
is 0. -/
theorem computeTarget_eq_compact_iff (bits : UInt32) :
    computeTarget bits.toNat = compactTarget (bits.toNat >>> 24) (bits.toNat % 2 ^ 24) ↔
      bits.toNat >>> 24 < 35 ∨ bits.toNat % 2 ^ 24 = 0 := by
  rw [computeTarget_eq, compactTarget]
  by_cases large : bits.toNat >>> 24 > 3
  · rw [if_pos large, if_pos large, mul_eq_mul_left_iff]
    have powers : 256 ^ ((bits.toNat >>> 24 - 3) % 32) = 256 ^ (bits.toNat >>> 24 - 3) ↔
        (bits.toNat >>> 24 - 3) % 32 = bits.toNat >>> 24 - 3 :=
      Nat.pow_right_inj (by decide)
    rw [powers]
    omega
  · rw [if_neg large, if_neg large]
    omega

/-- With exponent 35 the shift is 0 and the target the coefficient itself. -/
theorem exponent_wraps :
    let bits : UInt32 := 0x23111111
    computeTarget bits.toNat = 0x111111 ∧
      computeTarget bits.toNat ≠ compactTarget (bits.toNat >>> 24) (bits.toNat % 2 ^ 24) := by
  decide

end Peerster
