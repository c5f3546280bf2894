import Peerster.Token

/-!
# Amounts as natural numbers

`Burn` and `Transfer` check the balance they subtract from and no addition of `peer/impl/token.go`
is checked.  On a token created without supply the total is the sum of the balances, so an addition
that fits the total fits every balance, and the run is exact as long as the total never passes
`2 ^ 64` (`exact_iff_fits`).
-/

namespace Peerster

namespace Token

/-! ## The stated amounts -/

/-- The call reports success; `Mint` has nothing to report. -/
def succeeds (t : Token) : Call → Bool
  | .addAddress address initialBalance => (t.addAddress address initialBalance).toBool
  | .mint _ _ => true
  | .burn address amount => (t.burn address amount).toBool
  | .transfer sender recipient amount => (t.transfer sender recipient amount).toBool

/-- What a successful call adds to the balance of an account. -/
def Call.change (a : GoString) : Call → Int
  | .addAddress address initialBalance =>
      if a = address then (initialBalance.head?.getD 0).toNat else 0
  | .mint address amount => if a = address then amount.toNat else 0
  | .burn address amount => if a = address then -amount.toNat else 0
  | .transfer sender recipient amount =>
      (if a = recipient then (amount.toNat : Int) else 0) - if a = sender then amount.toNat else 0

/-- What a successful call adds to the total supply. -/
def Call.supplyChange : Call → Int
  | .addAddress _ initialBalance => (initialBalance.head?.getD 0).toNat
  | .mint _ amount => amount.toNat
  | .burn _ amount => -amount.toNat
  | .transfer _ _ _ => 0

/-- From `t` to `t'` the balances and the total change by the stated amounts, as integers. -/
def ExactChange (t t' : Token) (c : Call) : Prop :=
  (∀ a, ((t'.getBalance a).toNat : Int) = (t.getBalance a).toNat + c.change a) ∧
    (t'.totalSupply.toNat : Int) = t.totalSupply.toNat + c.supplyChange

/-- If the call succeeds, it changes everything by the stated amounts. -/
def Exact (t : Token) (c : Call) : Prop := t.succeeds c = true → ExactChange t (t.call c) c

/-- The total stays below `2 ^ 64`, and nothing is sent from an account to itself. -/
def Fits (t : Token) : Call → Prop
  | .addAddress address initialBalance =>
      initialBalance.length ≤ 1 → t.balances.get address = none →
        t.totalSupply.toNat + (initialBalance.head?.getD 0).toNat < 2 ^ 64
  | .mint _ amount => t.totalSupply.toNat + amount.toNat < 2 ^ 64
  | .burn _ _ => True
  | .transfer sender recipient amount =>
      sender = recipient → ∀ balance, t.balances.get sender = some balance → amount ≤ balance →
        amount = 0

/-! ## Balances after a write -/

section Balances

variable {balances : FinMap GoString UInt64}

/-- The entry of an account as a number. -/
def entry (balances : FinMap GoString UInt64) (a : GoString) : Nat :=
  ((balances.get a).map UInt64.toNat).getD 0

theorem toNat_getBalance (t : Token) (a : GoString) :
    (t.getBalance a).toNat = entry t.balances a := by
  unfold getBalance entry
  cases t.balances.get a <;> rfl

theorem entry_of_get {a : GoString} {balance : UInt64} (found : balances.get a = some balance) :
    entry balances a = balance.toNat := by
  rw [entry, found]
  rfl

theorem entry_add (a address : GoString) (balance : UInt64) :
    entry (balances.add address balance) a =
      if a = address then balance.toNat else entry balances a := by
  by_cases here : a = address
  · rw [if_pos here, here, entry_of_get (FinMap.get_add_self _ _ _)]
  · rw [if_neg here, entry, FinMap.get_add_of_ne _ _ here]
    rfl

/-- A write changes the sum by the new balance less the one it replaces. -/
theorem sum_add_entry (balances : FinMap GoString UInt64) (address : GoString) (balance : UInt64) :
    (balances.add address balance).sum UInt64.toNat + entry balances address =
      balances.sum UInt64.toNat + balance.toNat := by
  rw [FinMap.sum_add, FinMap.sum_eq_getD_add_sum_remove balances address, entry]
  omega

/-- The total supply is the sum of the balances. -/
def Backed (t : Token) : Prop := t.totalSupply.toNat = t.balances.sum UInt64.toNat

theorem backed_newToken (name symbol : GoString) : Backed (newToken name symbol 0) := rfl

theorem entry_le_sum (balances : FinMap GoString UInt64) (a : GoString) :
    entry balances a ≤ balances.sum UInt64.toNat := by
  rw [FinMap.sum_eq_getD_add_sum_remove balances a]
  exact Nat.le_add_right _ _

/-- Two accounts hold no more than all of them. -/
theorem entry_add_entry_le_sum (balances : FinMap GoString UInt64) {a b : GoString}
    (apart : a ≠ b) :
    entry balances a + entry balances b ≤ balances.sum UInt64.toNat := by
  have other : entry (balances.remove a) b = entry balances b := by
    rw [entry, FinMap.get_remove_of_ne _ apart.symm]
    rfl
  have le := entry_le_sum (balances.remove a) b
  rw [other] at le
  rw [FinMap.sum_eq_getD_add_sum_remove balances a]
  exact Nat.add_le_add_left le _

end Balances

/-! ## One call -/

section Calls

variable {t : Token}

/-- A call that fails changes nothing. -/
theorem amounts_of_refused (backed : Backed t) {c : Call} (refused : t.succeeds c = false)
    (unchanged : t.call c = t) (fits : Fits t c) :
    (Exact t c ↔ Fits t c) ∧ (Fits t c → Backed (t.call c)) := by
  rw [Exact, refused, unchanged]
  exact ⟨⟨fun _ => fits, fun _ => Bool.noConfusion⟩, fun _ => backed⟩

theorem exact_of_ok {c : Call} (ok : t.succeeds c = true) :
    Exact t c ↔ ExactChange t (t.call c) c :=
  ⟨fun exact => exact ok, fun changed _ => changed⟩

/-- A deposit, as `AddAddress` and `Mint` make one. -/
def deposit (t : Token) (address : GoString) (amount : UInt64) : Token :=
  { t with
    balances := t.balances.add address (t.getBalance address + amount)
    totalSupply := t.totalSupply + amount }

/-- A deposit is exact when the total has room for it: no balance is larger than the total. -/
theorem deposit_exact_iff (backed : Backed t) {c : Call} {address : GoString} {amount : UInt64}
    (change : ∀ a, c.change a = if a = address then (amount.toNat : Int) else 0)
    (supplyChange : c.supplyChange = amount.toNat) :
    ExactChange t (t.deposit address amount) c ↔ t.totalSupply.toNat + amount.toNat < 2 ^ 64 := by
  have total : (t.deposit address amount).totalSupply.toNat =
      (t.totalSupply.toNat + amount.toNat) % 2 ^ 64 := UInt64.toNat_add _ _
  constructor
  · rintro ⟨-, supply⟩
    rw [supplyChange, total] at supply
    omega
  · intro room
    refine ⟨fun a => ?_, by rw [supplyChange, total]; omega⟩
    have below : entry t.balances address ≤ t.totalSupply.toNat := by
      rw [backed]
      exact entry_le_sum _ address
    rw [change, toNat_getBalance, toNat_getBalance, deposit, entry_add, UInt64.toNat_add,
      toNat_getBalance]
    split
    · next here =>
      rw [here]
      omega
    · omega

theorem deposit_backed (backed : Backed t) {address : GoString} {amount : UInt64}
    (room : t.totalSupply.toNat + amount.toNat < 2 ^ 64) : Backed (t.deposit address amount) := by
  have below : entry t.balances address ≤ t.balances.sum UInt64.toNat := entry_le_sum _ address
  have written := sum_add_entry t.balances address (t.getBalance address + amount)
  rw [UInt64.toNat_add, toNat_getBalance] at written
  simp only [Backed, deposit, UInt64.toNat_add] at backed ⊢
  omega

theorem addAddress_amounts (backed : Backed t) (address : GoString) (initialBalance : List UInt64) :
    (Exact t (.addAddress address initialBalance) ↔ Fits t (.addAddress address initialBalance)) ∧
      (Fits t (.addAddress address initialBalance) →
        Backed (t.call (.addAddress address initialBalance))) := by
  by_cases accepted : initialBalance.length ≤ 1 ∧ t.balances.get address = none
  · obtain ⟨few, absent⟩ := accepted
    have free : t.balances.exists? address = false := by rw [FinMap.exists?, absent]; rfl
    have many : ¬ initialBalance.length > 1 := Nat.not_lt.mpr few
    have ok : t.succeeds (.addAddress address initialBalance) = true := by
      simp only [succeeds, addAddress, many, if_false, free, Bool.false_eq_true]
      rfl
    have after : t.call (.addAddress address initialBalance) =
        t.deposit address (initialBalance.head?.getD 0) := by
      simp only [call, addAddress, many, if_false, free, Bool.false_eq_true, deposit, getBalance,
        absent, Option.getD_none, zero_add]
      rfl
    have fits : Fits t (.addAddress address initialBalance) ↔
        t.totalSupply.toNat + (initialBalance.head?.getD 0).toNat < 2 ^ 64 :=
      ⟨fun room => room few absent, fun room _ _ => room⟩
    rw [exact_of_ok ok, fits, after]
    exact ⟨deposit_exact_iff backed (fun _ => rfl) rfl, deposit_backed backed⟩
  · have refused : t.succeeds (.addAddress address initialBalance) = false ∧
        t.call (.addAddress address initialBalance) = t := by
      by_cases many : initialBalance.length > 1
      · simp only [succeeds, call, addAddress, many, if_true]
        exact ⟨rfl, rfl⟩
      · have present : t.balances.exists? address = true := by
          rw [FinMap.exists?, Option.isSome_iff_ne_none]
          exact fun absent => accepted ⟨Nat.not_lt.mp many, absent⟩
        simp only [succeeds, call, addAddress, many, if_false, present, if_true]
        exact ⟨rfl, rfl⟩
    exact amounts_of_refused backed refused.1 refused.2
      fun few absent => (accepted ⟨few, absent⟩).elim

theorem mint_amounts (backed : Backed t) (address : GoString) (amount : UInt64) :
    (Exact t (.mint address amount) ↔ Fits t (.mint address amount)) ∧
      (Fits t (.mint address amount) → Backed (t.call (.mint address amount))) := by
  have after : t.call (.mint address amount) = t.deposit address amount := by
    cases found : t.balances.get address <;> simp [call, mint, deposit, getBalance, found]
  rw [exact_of_ok rfl, after]
  exact ⟨deposit_exact_iff backed (fun _ => rfl) rfl, deposit_backed backed⟩

/-- A withdrawal is covered by the balance, which is no larger than the total. -/
theorem burn_amounts (backed : Backed t) (address : GoString) (amount : UInt64) :
    (Exact t (.burn address amount) ↔ Fits t (.burn address amount)) ∧
      (Fits t (.burn address amount) → Backed (t.call (.burn address amount))) := by
  have done : Exact t (.burn address amount) ∧ Backed (t.call (.burn address amount)) := by
    unfold Exact
    simp only [succeeds, call, burn]
    split
    · exact ⟨Bool.noConfusion, backed⟩
    · next balance found =>
      split
      · exact ⟨Bool.noConfusion, backed⟩
      · next covered =>
        have le : amount ≤ balance := UInt64.not_lt.mp covered
        have le' : amount.toNat ≤ balance.toNat := UInt64.le_iff_toNat_le.mp le
        have here := entry_of_get found
        have below := entry_le_sum t.balances address
        have written := sum_add_entry t.balances address (balance - amount)
        have rest : (balance - amount).toNat = balance.toNat - amount.toNat :=
          UInt64.toNat_sub_of_le _ _ le
        have total : (t.totalSupply - amount).toNat = t.totalSupply.toNat - amount.toNat := by
          refine UInt64.toNat_sub_of_le _ _ (UInt64.le_iff_toNat_le.mpr ?_)
          rw [backed]
          omega
        rw [Backed] at backed
        refine ⟨fun _ => ⟨fun a => ?_, ?_⟩, ?_⟩
        · simp only [Except.toOption, Option.getD_some, toNat_getBalance, entry_add, Call.change]
          split
          · next same =>
            rw [same]
            omega
          · omega
        · simp only [Except.toOption, Option.getD_some, total, Call.supplyChange]
          omega
        · simp only [Except.toOption, Option.getD_some, Backed, total]
          omega
  exact ⟨⟨fun _ => trivial, fun _ => done.1⟩, fun _ => done.2⟩

/-- A transfer between two accounts, which together hold no more than the total. -/
theorem transfer_apart (backed : Backed t) {sender recipient : GoString} {amount balance : UInt64}
    (found : t.balances.get sender = some balance) (covered : ¬ balance < amount)
    (apart : sender ≠ recipient) :
    ExactChange t (t.call (.transfer sender recipient amount))
        (.transfer sender recipient amount) ∧
      Backed (t.call (.transfer sender recipient amount)) := by
  have after : t.call (.transfer sender recipient amount) =
      { t with
        balances := (t.balances.add recipient (t.getBalance recipient + amount)).add sender
          (balance - amount) } := by
    simp only [call, transfer, found, covered, if_false]
    cases foundTo : t.balances.get recipient <;>
      simp [getBalance, foundTo, Except.toOption]
  have le : amount ≤ balance := UInt64.not_lt.mp covered
  have le' : amount.toNat ≤ balance.toNat := UInt64.le_iff_toNat_le.mp le
  have here := entry_of_get found
  have both := entry_add_entry_le_sum t.balances apart
  have bound := t.totalSupply.toNat_lt
  rw [Backed] at backed
  have rest : (balance - amount).toNat = balance.toNat - amount.toNat :=
    UInt64.toNat_sub_of_le _ _ le
  have more : (t.getBalance recipient + amount).toNat =
      entry t.balances recipient + amount.toNat := by
    rw [UInt64.toNat_add, toNat_getBalance]
    omega
  rw [after]
  refine ⟨⟨fun a => ?_, ?_⟩, ?_⟩
  · simp only [toNat_getBalance, entry_add, Call.change, rest, more]
    by_cases isSender : a = sender
    · subst isSender
      rw [if_pos rfl, if_pos rfl, if_neg apart]
      omega
    · by_cases isRecipient : a = recipient
      · subst isRecipient
        simp only [isSender, if_false, if_true]
        omega
      · simp only [isSender, isRecipient, if_false]
        omega
  · simp only [Call.supplyChange]
    omega
  · have first := sum_add_entry t.balances recipient (t.getBalance recipient + amount)
    have second := sum_add_entry
      (t.balances.add recipient (t.getBalance recipient + amount)) sender
      (balance - amount)
    rw [entry_add, if_neg apart] at second
    simp only [Backed]
    omega

/-- Of a transfer to itself an account keeps only the debit. -/
theorem transfer_self (backed : Backed t) {address : GoString} {amount balance : UInt64}
    (found : t.balances.get address = some balance) (covered : ¬ balance < amount) :
    (ExactChange t (t.call (.transfer address address amount)) (.transfer address address amount) ↔
        amount = 0) ∧
      (amount = 0 → Backed (t.call (.transfer address address amount))) := by
  have le : amount ≤ balance := UInt64.not_lt.mp covered
  have le' : amount.toNat ≤ balance.toNat := UInt64.le_iff_toNat_le.mp le
  have here := entry_of_get found
  have rest : (balance - amount).toNat = balance.toNat - amount.toNat :=
    UInt64.toNat_sub_of_le _ _ le
  have zero : amount = 0 ↔ amount.toNat = 0 := UInt64.toNat_inj.symm
  have after : t.call (.transfer address address amount) =
      { t with
        balances := (t.balances.add address (balance + amount)).add address
          (balance - amount) } := by
    simp only [call, transfer, found, covered, if_false]
    rfl
  rw [Backed] at backed
  rw [after, zero]
  constructor
  · constructor
    · rintro ⟨balances, -⟩
      have changed := balances address
      simp only [toNat_getBalance, entry_add, if_true, Call.change] at changed
      omega
    · intro none
      refine ⟨fun a => ?_, by simp only [Call.supplyChange]; omega⟩
      simp only [toNat_getBalance, entry_add, Call.change]
      split
      · next same =>
        rw [same]
        omega
      · omega
  · intro none
    have first := sum_add_entry t.balances address (balance + amount)
    have second := sum_add_entry (t.balances.add address (balance + amount)) address
      (balance - amount)
    rw [entry_add, if_pos rfl] at second
    simp only [Backed]
    omega

theorem transfer_amounts (backed : Backed t) (sender recipient : GoString) (amount : UInt64) :
    (Exact t (.transfer sender recipient amount) ↔ Fits t (.transfer sender recipient amount)) ∧
      (Fits t (.transfer sender recipient amount) →
        Backed (t.call (.transfer sender recipient amount))) := by
  cases found : t.balances.get sender with
  | none =>
      have refused : t.succeeds (.transfer sender recipient amount) = false ∧
          t.call (.transfer sender recipient amount) = t := by
        simp only [succeeds, call, transfer, found]
        exact ⟨rfl, rfl⟩
      refine amounts_of_refused backed refused.1 refused.2 fun _ balance found' => ?_
      rw [found] at found'
      cases found'
  | some balance =>
      by_cases covered : balance < amount
      · have refused : t.succeeds (.transfer sender recipient amount) = false ∧
            t.call (.transfer sender recipient amount) = t := by
          simp only [succeeds, call, transfer, found, covered, if_true]
          exact ⟨rfl, rfl⟩
        refine amounts_of_refused backed refused.1 refused.2 fun _ balance' found' le => ?_
        rw [found] at found'
        cases found'
        exact absurd covered (UInt64.not_lt.mpr le)
      · have ok : t.succeeds (.transfer sender recipient amount) = true := by
          simp only [succeeds, transfer, found, covered, if_false]
          rfl
        by_cases self : sender = recipient
        · subst self
          obtain ⟨changed, kept⟩ := transfer_self backed found covered
          have fits : Fits t (.transfer sender sender amount) ↔ amount = 0 := by
            refine ⟨fun fits => fits rfl balance found (UInt64.not_lt.mp covered), ?_⟩
            exact fun zero _ _ _ _ => zero
          rw [exact_of_ok ok, changed, fits]
          exact ⟨Iff.rfl, kept⟩
        · obtain ⟨changed, kept⟩ := transfer_apart backed found covered self
          have fits : Fits t (.transfer sender recipient amount) := fun same => (self same).elim
          exact ⟨⟨fun _ => fits, fun _ => (exact_of_ok ok).mpr changed⟩, fun _ => kept⟩

/-- On a backed token every call that fits is exact, no other is, and it leaves the token backed. -/
theorem call_amounts (backed : Backed t) (c : Call) :
    (Exact t c ↔ Fits t c) ∧ (Fits t c → Backed (t.call c)) := by
  cases c with
  | addAddress address initialBalance => exact addAddress_amounts backed address initialBalance
  | mint address amount => exact mint_amounts backed address amount
  | burn address amount => exact burn_amounts backed address amount
  | transfer sender recipient amount => exact transfer_amounts backed sender recipient amount

end Calls

/-! ## Runs -/

/-- **Exact amounts.**  Every successful call of a run from no supply changes the balances and the
total by exactly its amounts if and only if every call of it fits. -/
theorem exact_iff_fits (name symbol : GoString) (calls : List Call) :
    Run.Always call Exact (newToken name symbol 0) calls ↔
      Run.Always call Fits (newToken name symbol 0) calls :=
  Run.always_congr (backed_newToken name symbol) (fun _ c backed => (call_amounts backed c).1)
    fun _ c backed fits => (call_amounts backed c).2 fits

/-- Minting one more than all that fits leaves nothing. -/
theorem second_mint_wraps :
    ¬ Run.Always call Exact (newToken (str "Namecoin Token") (str "NTC") 0)
      [.mint (str "addr1") 18446744073709551615, .mint (str "addr1") 1] := by
  rintro ⟨-, second, -⟩
  have total := (second rfl).2
  revert total
  decide +kernel

end Token

end Peerster
