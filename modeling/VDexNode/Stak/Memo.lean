import VDexNode.Stak.Spec

/-!
# VDexNode.Stak.Memo — the number in the memo and the length of the lock

The memo of a staking transfer is read as an `int`, stored in 16 bits and only then compared with
the ten periods allowed, so a number outside of `0, …, 10` passes when it is in that range modulo
`2^16`.

* `LockMatches` : a transfer is accepted only for a number from `0` to `10`, and locked for as many
  periods.
* `lockMatches_iff` : **it is so for every transfer with a memo exactly when the 16 bits of the
  memo's number do not pass for another one.**
-/

namespace VDexNode.Stak

open Eosio

/-! ## The number -/

/-- The number of periods survives the 16 bits. -/
theorem toUInt16_of_le {n : ℤ} (h0 : 0 ≤ n) (h10 : n ≤ 10) : (toUInt16 n : ℤ) = n := by
  rw [toUInt16]
  omega

/-- A number of periods is either rejected or among those that pass for `0, …, 10`. -/
theorem onTransfer_number {rule : SubsidyRule} {self : Name} {now : ℕ} {s s' : State}
    {sender : Name} {quantity : Asset} {memo : String} (hself : sender ≠ self)
    (htoken : sender ≠ tokenAcc)
    (h : onTransfer rule self now s sender self quantity memo = .ok s') :
    ∃ n, stoi memo = .ok n ∧ toUInt16 n ≤ 10 ∧ ∃ row : Stake, row.account = sender ∧
      row.amount = quantity ∧ s.accountStake.find row.key = none ∧
      row.unlockTimestamp = (now + toUInt16 n * stakePeriod) % 2 ^ 32 ∧
      s'.accountStake = s.accountStake.put row := by
  rcases onTransfer_ok h with ⟨hc, -⟩ | ⟨-, -, -, n, hn, hstake⟩
  · rcases hc with hc | hc | hc
    · exact absurd hc hself
    · exact absurd rfl hc
    · exact absurd hc htoken
  · obtain ⟨row, g, -, -, -, hperiods, haccount, hamount, -, hunlock, hnew, -, -, rfl⟩ :=
      stake_ok hstake
    exact ⟨n, hn, hperiods, row, haccount, hamount, hnew, hunlock, rfl⟩

/-! ## The lock -/

/-- A staking transfer that is accepted names a number from `0` to `10` and is locked for as many
periods; one that names another number is rejected. -/
def LockMatches (rule : SubsidyRule) (self : Name) (now : ℕ) (s : State) (sender : Name)
    (quantity : Asset) (memo : String) : Prop :=
  (∀ s', onTransfer rule self now s sender self quantity memo = .ok s' →
    ∃ n, stoi memo = .ok n ∧ (0 ≤ n ∧ n ≤ 10) ∧ ∃ row : Stake, row.account = sender ∧
      row.amount = quantity ∧ s.accountStake.find row.key = none ∧
      (row.unlockTimestamp : ℤ) = now + n * stakePeriod ∧
      s'.accountStake = s.accountStake.put row) ∧
  ∀ n, stoi memo = .ok n → ¬ (0 ≤ n ∧ n ≤ 10) →
    ∃ e, onTransfer rule self now s sender self quantity memo = .error e

/-- The number of the memo does not pass for another one: where its 16 bits are at most `10`, so is
the number, and it is not negative. -/
def PlainMemo (memo : String) : Prop :=
  ∀ n, stoi memo = .ok n → n % 2 ^ 16 ≤ 10 → 0 ≤ n ∧ n ≤ 10

/-- Transfers with such a memo are locked as it says. -/
theorem PlainMemo.lockMatches {memo : String} (hplain : PlainMemo memo) (rule : SubsidyRule)
    {self : Name} {now : ℕ} (s : State) {sender : Name} (quantity : Asset) (hself : sender ≠ self)
    (htoken : sender ≠ tokenAcc) (hnow : now ≤ 2 ^ 32 - 1 - 10 * stakePeriod) :
    LockMatches rule self now s sender quantity memo := by
  have hrange : ∀ n, stoi memo = .ok n → toUInt16 n ≤ 10 → 0 ≤ n ∧ n ≤ 10 := by
    intro n hn hle
    refine hplain n hn ?_
    rw [toUInt16] at hle
    omega
  refine ⟨fun s' h => ?_, fun n hn hout => ?_⟩
  · obtain ⟨n, hn, hle, row, haccount, hamount, hnew, hunlock, hs'⟩ :=
      onTransfer_number hself htoken h
    obtain ⟨h0, h10⟩ := hrange n hn hle
    refine ⟨n, hn, ⟨h0, h10⟩, row, haccount, hamount, hnew, ?_, hs'⟩
    have hperiods := toUInt16_of_le h0 h10
    have hmul : toUInt16 n * stakePeriod ≤ 10 * stakePeriod := Nat.mul_le_mul_right _ hle
    have hperiod : stakePeriod = 2592000 := rfl
    rw [hunlock, Nat.mod_eq_of_lt (by omega), Nat.cast_add, Nat.cast_mul, hperiods]
  · cases h : onTransfer rule self now s sender self quantity memo with
    | error e => exact ⟨e, rfl⟩
    | ok s' =>
      obtain ⟨n', hn', hle, -⟩ := onTransfer_number hself htoken h
      cases hn.symm.trans hn'
      exact absurd (hrange n hn hle) hout

/-- The totals have been set up, and nothing is staked. -/
def ready : State := { globals := some {} }

/-- The smallest stake of a first staker is accepted for every number of periods up to ten. -/
theorem ready_accepts : ∀ p, p ≤ 10 →
    (stake SubsidyRule.exact 0 ready (Name.ofString "alice") minStakeAmount p).isOk = true := by
  have hall : ∀ p ∈ List.range 11,
      (stake SubsidyRule.exact 0 ready (Name.ofString "alice") minStakeAmount p).isOk = true := by
    decide +kernel
  intro p hp
  exact hall p (List.mem_range.mpr (by omega))

/-- **The lock and the memo**: the staking transfers with a memo are all locked as it says exactly
when its number does not pass for another one in 16 bits. -/
theorem lockMatches_iff (memo : String) :
    (∀ rule self now s sender quantity, sender ≠ self → sender ≠ tokenAcc →
      now ≤ 2 ^ 32 - 1 - 10 * stakePeriod → LockMatches rule self now s sender quantity memo) ↔
    PlainMemo memo := by
  constructor
  · intro hall n hn hmod
    have hle : toUInt16 n ≤ 10 := by
      rw [toUInt16]
      omega
    let alice := Name.ofString "alice"
    let self := Name.ofString "vltxstakenow"
    obtain ⟨s', hs'⟩ := exists_of_isOk (ready_accepts (toUInt16 n) hle)
    have haccepted : onTransfer SubsidyRule.exact self 0 ready alice self minStakeAmount memo
        = .ok s' := by
      rw [onTransfer, if_neg (by decide), hn, ok_bind]
      exact hs'
    have hmatches := hall SubsidyRule.exact self 0 ready alice minStakeAmount (by decide)
      (by decide) (Nat.zero_le _)
    obtain ⟨n', hn', hrange, -⟩ := hmatches.1 s' haccepted
    cases hn.symm.trans hn'
    exact hrange
  · intro hplain rule self now s sender quantity hself htoken hnow
    exact hplain.lockMatches rule s quantity hself htoken hnow

/-- The memo `65537` opens a stake for one period. -/
theorem memo_narrowed : ¬ ∀ (rule : SubsidyRule) (self : Name) (now : ℕ) (s : State) (sender : Name)
    (quantity : Asset) (memo : String), sender ≠ self → sender ≠ tokenAcc →
    now ≤ 2 ^ 32 - 1 - 10 * stakePeriod → LockMatches rule self now s sender quantity memo := by
  intro hall
  obtain ⟨e, he⟩ := (hall SubsidyRule.exact (Name.ofString "vltxstakenow") 0 ready
    (Name.ofString "alice") minStakeAmount "65537" (by decide) (by decide) (Nat.zero_le _)).2 65537
    (by decide +kernel) (by decide)
  have hok : (onTransfer SubsidyRule.exact (Name.ofString "vltxstakenow") 0 ready
      (Name.ofString "alice") (Name.ofString "vltxstakenow") minStakeAmount "65537").isOk
        = true := by
    decide +kernel
  rw [he] at hok
  cases hok

end VDexNode.Stak
