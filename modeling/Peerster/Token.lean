import Mathlib.Data.UInt
import Mathlib.Tactic.Abel
import Peerster.Bytes
import Peerster.Lib.FinMap
import Peerster.Lib.Run

/-!
# The token ledger

`peer/impl/token.go`: a `Token` keeps its total supply in a field of its own, beside the map of
balances, and every operation updates the two separately.  Amounts are `uint64`, so both wrap.

`Token.drift` is the supply not accounted for by the balances.  One call moves it by exactly
`Token.leak` (`Token.drift_call`), which is zero except for a transfer from an address to itself:
there the second of the two map writes overwrites the first and the amount is gone from the
balances while the supply still counts it.
-/

namespace Peerster

/-- `Token`, less its mutex. -/
structure Token where
  name : GoString
  shorthand : GoString
  totalSupply : UInt64
  balances : FinMap GoString UInt64

namespace Token

/-- `NewToken`. -/
def newToken (name symbol : GoString) (initialSupply : UInt64) : Token where
  name := name
  shorthand := symbol
  totalSupply := initialSupply
  balances := .empty

/-- `AddAddress`; the optional balance is a variadic argument. -/
def addAddress (t : Token) (address : GoString) (initialBalance : List UInt64) :
    Except GoString Token :=
  if initialBalance.length > 1 then
    .error (str "AddAddress: too many arguments for initialBalance")
  else
    let balance := initialBalance.head?.getD 0
    if t.balances.exists? address then
      .error (str "AddAddress: address " ++ address ++ str " already exists")
    else
      .ok { t with
        balances := t.balances.add address balance
        totalSupply := t.totalSupply + balance }

/-- `Mint`. -/
def mint (t : Token) (address : GoString) (amount : UInt64) : Token :=
  let balances := match t.balances.get address with
    | none => t.balances.add address amount
    | some currentBalance => t.balances.add address (currentBalance + amount)
  { t with balances := balances, totalSupply := t.totalSupply + amount }

/-- `Burn`. -/
def burn (t : Token) (address : GoString) (amount : UInt64) : Except GoString Token :=
  match t.balances.get address with
  | none => .error (str "Burn: address " ++ address ++ str " does not exist")
  | some currentBalance =>
      if currentBalance < amount then
        .error (str "Burn: insufficient balance in address " ++ address)
      else
        .ok { t with
          balances := t.balances.add address (currentBalance - amount)
          totalSupply := t.totalSupply - amount }

/-- `Transfer`: the credit is written first, then the debit, each from a balance read before
either write. -/
def transfer (t : Token) (sender recipient : GoString) (amount : UInt64) : Except GoString Token :=
  match t.balances.get sender with
  | none => .error (str "Transfer: address " ++ sender ++ str " does not exist")
  | some fromBalance =>
      if fromBalance < amount then
        .error (str "Transfer: insufficient balance in address " ++ sender)
      else
        let credited := match t.balances.get recipient with
          | none => t.balances.add recipient amount
          | some toBalance => t.balances.add recipient (toBalance + amount)
        .ok { t with balances := credited.add sender (fromBalance - amount) }

/-- `GetBalance`. -/
def getBalance (t : Token) (address : GoString) : UInt64 := (t.balances.get address).getD 0

/-- One call on a token. -/
inductive Call : Type
  | addAddress (address : GoString) (initialBalance : List UInt64)
  | mint (address : GoString) (amount : UInt64)
  | burn (address : GoString) (amount : UInt64)
  | transfer (sender recipient : GoString) (amount : UInt64)

/-- The token after a call.  Every error is returned before the first write. -/
def call (t : Token) : Call → Token
  | .addAddress address initialBalance => (t.addAddress address initialBalance).toOption.getD t
  | .mint address amount => t.mint address amount
  | .burn address amount => (t.burn address amount).toOption.getD t
  | .transfer sender recipient amount => (t.transfer sender recipient amount).toOption.getD t

/-! ## Drift -/

/-- The part of the supply that no balance accounts for, modulo `2 ^ 64`. -/
def drift (t : Token) : UInt64 := t.totalSupply - t.balances.sum id

/-- What a call adds to the drift. -/
def leak (t : Token) : Call → UInt64
  | .transfer sender recipient amount =>
      match t.balances.get sender with
      | some balance => if sender = recipient ∧ amount ≤ balance then amount else 0
      | none => 0
  | _ => 0

@[simp] theorem drift_newToken (name symbol : GoString) (initialSupply : UInt64) :
    (newToken name symbol initialSupply).drift = initialSupply := by
  simp [drift, newToken]

/-- Writing a balance moves the sum by the difference to what was there. -/
theorem sum_add_balance (balances : FinMap GoString UInt64) (address : GoString)
    (balance : UInt64) :
    (balances.add address balance).sum id =
      balances.sum id - (balances.get address).getD 0 + balance := by
  rw [FinMap.sum_add, FinMap.sum_eq_getD_add_sum_remove balances address]
  cases balances.get address <;> simp <;> abel

theorem drift_addAddress (t : Token) (address : GoString) (initialBalance : List UInt64) :
    (t.call (.addAddress address initialBalance)).drift = t.drift := by
  simp only [call, addAddress]
  by_cases many : initialBalance.length > 1
  · simp only [many, if_true]
    rfl
  · by_cases present : t.balances.exists? address = true
    · simp only [many, if_false, present, if_true]
      rfl
    · have absent : t.balances.get address = none := by simpa [FinMap.exists?] using present
      rw [if_neg many, if_neg present]
      simp only [Except.toOption, Option.getD_some, drift, sum_add_balance, absent,
        Option.getD_none]
      abel

theorem drift_mint (t : Token) (address : GoString) (amount : UInt64) :
    (t.call (.mint address amount)).drift = t.drift := by
  simp only [call, mint, drift]
  cases found : t.balances.get address with
  | none => simp only [sum_add_balance, found, Option.getD_none]; abel
  | some balance => simp only [sum_add_balance, found, Option.getD_some]; abel

theorem drift_burn (t : Token) (address : GoString) (amount : UInt64) :
    (t.call (.burn address amount)).drift = t.drift := by
  simp only [call, burn]
  cases found : t.balances.get address with
  | none => rfl
  | some balance =>
      by_cases poor : balance < amount
      · simp only [poor, if_true]
        rfl
      · simp only [poor, if_false, Except.toOption, Option.getD_some, drift, sum_add_balance,
          found]
        abel

/-- A transfer keeps the drift, unless its two addresses are the same. -/
theorem drift_transfer (t : Token) (sender recipient : GoString) (amount : UInt64) :
    (t.call (.transfer sender recipient amount)).drift =
      t.drift + t.leak (.transfer sender recipient amount) := by
  simp only [call, transfer, leak]
  cases found : t.balances.get sender with
  | none => simp [Except.toOption]
  | some balance =>
      by_cases poor : balance < amount
      · have notFunded : ¬ amount ≤ balance := UInt64.not_le.mpr poor
        simp [poor, notFunded, Except.toOption]
      · have funded : amount ≤ balance := UInt64.not_lt.mp poor
        by_cases self : sender = recipient
        · subst self
          simp only [poor, if_false, found, Except.toOption, Option.getD_some, drift,
            sum_add_balance, FinMap.get_add_self, funded, and_self, if_true]
          abel
        · simp only [poor, if_false, self, false_and, Except.toOption, Option.getD_some, drift]
          cases foundTo : t.balances.get recipient <;>
            simp only [sum_add_balance, FinMap.get_add_of_ne _ _ self, found, foundTo,
              Option.getD_some, Option.getD_none] <;> abel

/-- One call moves the drift by its leak. -/
theorem drift_call (t : Token) (c : Call) : (t.call c).drift = t.drift + t.leak c := by
  cases c with
  | addAddress address initialBalance => simpa [leak] using t.drift_addAddress address _
  | mint address amount => simpa [leak] using t.drift_mint address amount
  | burn address amount => simpa [leak] using t.drift_burn address amount
  | transfer sender recipient amount => exact t.drift_transfer sender recipient amount

/-! ## Conservation -/

/-- `TotalSupply` is the initial supply plus the sum of all balances, modulo `2 ^ 64`. -/
def Conserved (supply : UInt64) (t : Token) : Prop :=
  t.totalSupply.toNat = (supply.toNat + t.balances.sum UInt64.toNat) % 2 ^ 64

instance (supply : UInt64) (t : Token) : Decidable (Conserved supply t) :=
  inferInstanceAs (Decidable (_ = _))

theorem sum_toNat (balances : FinMap GoString UInt64) :
    (balances.sum id).toNat = balances.sum UInt64.toNat % 2 ^ 64 := by
  simp only [FinMap.sum]
  induction balances.keys using Finset.induction_on with
  | empty => rfl
  | insert address keys fresh ih =>
      rw [Finset.sum_insert fresh, Finset.sum_insert fresh, UInt64.toNat_add, ih]
      cases balances.get address <;> simp

theorem conserved_iff_drift (supply : UInt64) (t : Token) :
    Conserved supply t ↔ t.drift = supply := by
  have total : supply.toNat + t.balances.sum UInt64.toNat ≡
      (supply + t.balances.sum id).toNat [MOD 2 ^ 64] := by
    rw [UInt64.toNat_add, sum_toNat]
    simp [Nat.ModEq]
  rw [Conserved, total, Nat.mod_eq_of_lt (UInt64.toNat_lt _), UInt64.toNat_inj, drift,
    sub_eq_iff_eq_add]

/-- The token after a list of calls on a fresh one. -/
def afterCalls (name symbol : GoString) (supply : UInt64) (calls : List Call) : Token :=
  Run.run call (newToken name symbol supply) calls

/-- Conservation after every call is the same as no call leaking. -/
theorem conserved_iff_leak {t : Token} {supply : UInt64} (start : t.drift = supply)
    (calls : List Call) :
    (∀ done rest, calls = done ++ rest → (Run.run call t done).drift = supply) ↔
      ∀ done c rest, calls = done ++ c :: rest → (Run.run call t done).leak c = 0 := by
  have next : ∀ done c, (Run.run call t (done ++ [c])).drift =
      (Run.run call t done).drift + (Run.run call t done).leak c := by
    intro done c
    rw [Run.run_append]
    exact drift_call _ c
  constructor
  · intro kept done c rest split
    have before := kept done (c :: rest) split
    have after := kept (done ++ [c]) rest (by simp [split])
    rw [next, before] at after
    simpa using after
  · intro tight done
    induction done using List.reverseRecOn with
    | nil => exact fun _ _ => start
    | append_singleton done c ih =>
        intro rest split
        have split : calls = done ++ c :: rest := by simpa using split
        rw [next, ih _ split, tight done c rest split, add_zero]

theorem leak_eq_zero (t : Token) (c : Call) :
    t.leak c = 0 ↔ ∀ address amount balance, c = .transfer address address amount →
      t.balances.get address = some balance → amount ≤ balance → amount = 0 := by
  cases c with
  | transfer sender recipient amount =>
      simp only [leak]
      cases found : t.balances.get sender with
      | none =>
          simp only [true_iff]
          rintro address amount balance ⟨⟩ present
          simp [found] at present
      | some balance =>
          by_cases self : sender = recipient
          · subst self
            by_cases funded : amount ≤ balance
            · simp only [funded, and_self, if_true]
              refine ⟨?_, fun h => h sender amount balance rfl found funded⟩
              rintro rfl address amount balance ⟨⟩ - -
              rfl
            · simp only [funded, and_false, if_false, true_iff]
              rintro address amount balance ⟨⟩ present enough
              rw [found] at present
              cases present
              exact (funded enough).elim
          · simp only [self, false_and, if_false, true_iff]
            rintro address amount balance ⟨⟩
            exact (self rfl).elim
  | addAddress address initialBalance => simp [leak]
  | mint address amount => simp [leak]
  | burn address amount => simp [leak]

/-- **Token conservation.**  The total supply stays the initial supply plus the balances after
every call of a run exactly when the run makes no transfer of a positive, covered amount from an
address to itself. -/
theorem conserved_iff_no_self_transfer (name symbol : GoString) (supply : UInt64)
    (calls : List Call) :
    (∀ done rest, calls = done ++ rest → Conserved supply (afterCalls name symbol supply done)) ↔
      ∀ done address amount rest balance,
        calls = done ++ .transfer address address amount :: rest →
        (afterCalls name symbol supply done).balances.get address = some balance →
        amount ≤ balance → amount = 0 := by
  simp only [conserved_iff_drift, afterCalls]
  rw [conserved_iff_leak (drift_newToken name symbol supply)]
  simp only [leak_eq_zero]
  constructor
  · intro tight done address amount rest balance split
    exact tight done _ rest split address amount balance rfl
  · rintro honest done c rest split address amount balance rfl
    exact honest done address amount rest balance split

/-- Minting 10 and sending 4 of them to oneself leaves 6, with the supply still at 10. -/
theorem self_transfer_loses_tokens :
    ¬ Conserved 0 (afterCalls (str "Namecoin Token") (str "NTC") 0
      [.mint (str "addr1") 10, .transfer (str "addr1") (str "addr1") 4]) := by
  decide +kernel

end Token

end Peerster
