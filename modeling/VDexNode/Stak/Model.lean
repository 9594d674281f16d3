import Mathlib.Data.Prod.Lex
import VDexNode.Eosio.Asset
import VDexNode.Eosio.MultiIndex

/-!
# VDexNode.Stak.Model — the staking contract `volentixstak`

A transfer of VTX to the contract opens a stake row for the sender; `unstake` pays every unlocked
row of its owner back with a subsidy, by one inline transfer, and erases it.  `globals` keeps three
running totals.

The subsidy is computed in `double`; `SubsidyRule` is the integer that computation ends in, with
the two bounds the ledger rests on.
-/

namespace VDexNode.Stak

open Eosio

/-! ## Constants -/

/-- `symbol(TOKEN_SYMBOL, SYMBOL_PRE_DIGIT)`. -/
def vtx : Symbol := ⟨SymbolCode.ofString "VTX", 8⟩

/-- `TOKEN_ACC`. -/
def tokenAcc : Name := Name.ofString "volentixtsys"

/-- `VOTING_CONTRACT`. -/
def votingContract : Name := Name.ofString "volentixvote"

/-- `MIN_STAKE_AMOUNT`. -/
def minStakeAmount : Asset := ⟨100000000000, vtx⟩

/-- `MAX_STAKE_AMOUNT`. -/
def maxStakeAmount : Asset := ⟨1000000000000000, vtx⟩

/-- `STAKE_PERIOD`, thirty days in seconds. -/
def stakePeriod : ℕ := 30 * 24 * 60 * 60

/-! ## Tables -/

/-- A row of `accountstake`, with the account whose scope it is in. -/
structure Stake where
  account : Name
  id : ℕ
  amount : Asset
  subsidy : Asset
  unlockTimestamp : ℕ
deriving DecidableEq, Repr

/-- Scope and primary key of a stake row. -/
def Stake.key (r : Stake) : Name ×ₗ ℕ := toLex (r.account, r.id)

/-- What `unstake` pays for a row. -/
def Stake.owed (r : Stake) : ℤ := r.amount.amount + r.subsidy.amount

/-- The row of the singleton `globalamount`. -/
structure GlobalAmount where
  currentlyStaked : Asset := ⟨0, vtx⟩
  cumulativeStaked : Asset := ⟨0, vtx⟩
  cumulativeSubsidy : Asset := ⟨0, vtx⟩
deriving DecidableEq, Repr

/-- The tables of the contract. -/
structure State where
  accountStake : Table Stake.key := Table.empty
  globals : Option GlobalAmount := none
  blacklist : Table (id : Name → Name) := Table.empty
deriving DecidableEq

/-- The rows in the scope of `account`, in key order. -/
def State.stakesOf (s : State) (account : Name) : List Stake :=
  (s.accountStake.filter (fun r => decide (r.account = account))).rows

/-! ## Library functions -/

/-- `std::isspace` in the C locale. -/
def isSpace (c : Char) : Bool :=
  c = ' ' || c = '\t' || c = '\n' || c = '\r' || c = '\x0b' || c = '\x0c'

/-- `std::stoi` in base ten: blanks, a sign, then the longest run of digits. -/
def stoi (s : String) : Result ℤ := do
  let l := s.toList.dropWhile isSpace
  let (sign, l) : ℤ × List Char := match l with
    | '-' :: l => (-1, l)
    | '+' :: l => (1, l)
    | l => (1, l)
  let digits := l.takeWhile Char.isDigit
  check (digits ≠ []) "stoi: no conversion"
  let v := sign * digits.foldl (fun v c => v * 10 + (c.toNat - '0'.toNat : ℤ)) 0
  check (-2 ^ 31 ≤ v ∧ v < 2 ^ 31) "stoi: out of range"
  return v

/-- Conversion of an `int` to `uint16_t`. -/
def toUInt16 (v : ℤ) : ℕ := (v % 2 ^ 16).toNat

/-! ## Staking -/

/-- The integer `quantity.amount * subsidy_part` is truncated to, by quantity and number of
periods. -/
structure SubsidyRule where
  part : ℤ → ℕ → ℤ
  nonneg : ∀ q p, 0 ≤ q → p ≤ 10 → 0 ≤ part q p
  le : ∀ q p, 0 ≤ q → p ≤ 10 → 50 * part q p ≤ q

/-- The rule in exact arithmetic: one percent, and a tenth of a percent more for each period. -/
def SubsidyRule.exact : SubsidyRule where
  part q p := q * (10 + p) / 1000
  nonneg q p hq _ := Int.ediv_nonneg (mul_nonneg hq (by omega)) (by norm_num)
  le q p hq hp := by
    have hmul : q * (10 + p) ≤ q * 20 := mul_le_mul_of_nonneg_left (by omega) hq
    omega

/-- `check_quantity`. -/
def checkQuantity (quantity : Asset) : Result Unit := do
  check quantity.symbol.isValid "invalid symbol"
  check quantity.isValid "invalid quantity"
  check (quantity.symbol = minStakeAmount.symbol) "symbol precision mismatch"
  let notLower ← minStakeAmount.le quantity
  check (notLower = true) "quantity is lower than min stake amount"
  let notBigger ← quantity.le maxStakeAmount
  check (notBigger = true) "quantity is bigger than max stake amount"

/-- `calculate_subsidy`. -/
def calculateSubsidy (rule : SubsidyRule) (quantity : Asset) (periodsNum : ℕ) : Result Asset := do
  checkQuantity quantity
  check (periodsNum ≤ 10) "max allowed periods num is 10 stake periods"
  return ⟨rule.part quantity.amount periodsNum, vtx⟩

/-- `update_globals`. -/
def updateGlobals (globals : Option GlobalAmount) (quantity subsidy : Asset) (unstake : Bool) :
    Result GlobalAmount :=
  match globals with
  | none => .error "Singleton does not exist"
  | some g =>
    if unstake = true then do
      let currentlyStaked ← g.currentlyStaked.sub quantity
      return { g with currentlyStaked := currentlyStaked }
    else do
      let t ← g.cumulativeStaked.add g.cumulativeSubsidy
      let t ← t.add quantity
      let t ← t.add subsidy
      let withinLimit ← t.le maxStakeAmount
      check (withinLimit = true) "Exceed total limit"
      let currentlyStaked ← g.currentlyStaked.add quantity
      let cumulativeStaked ← g.cumulativeStaked.add quantity
      let cumulativeSubsidy ← g.cumulativeSubsidy.add subsidy
      return ⟨currentlyStaked, cumulativeStaked, cumulativeSubsidy⟩

/-- `_stake`. -/
def stake (rule : SubsidyRule) (now : ℕ) (s : State) (account : Name) (quantity : Asset)
    (periodsNum : ℕ) : Result State := do
  let subsidy ← calculateSubsidy rule quantity periodsNum
  let rowId ← s.accountStake.availablePrimaryKey (fun r => decide (r.account = account)) Stake.id
  let accountStake ← s.accountStake.emplace
    ⟨account, rowId, quantity, subsidy, (now + periodsNum * stakePeriod) % 2 ^ 32⟩
  let globals ← updateGlobals s.globals quantity subsidy false
  return { s with accountStake := accountStake, globals := some globals }

/-- `onTransfer`, the handler of `transfer` notifications of the token contract. -/
def onTransfer (rule : SubsidyRule) (self : Name) (now : ℕ) (s : State) (sender recipient : Name)
    (quantity : Asset) (memo : String) : Result State :=
  if sender = self ∨ recipient ≠ self ∨ sender = tokenAcc then .ok s
  else do
    let n ← stoi memo
    stake rule now s sender quantity (toUInt16 n)

/-! ## Unstaking -/

/-- One turn of the loop of `unstake_unlocked`: skip a locked row; add an unlocked one to the
payout, take it out of the totals and erase it. -/
def unstakeRow (timestamp : ℕ) (acc : Asset × State) (itr : Stake) : Result (Asset × State) :=
  if timestamp < itr.unlockTimestamp then .ok acc
  else do
    let owed ← itr.amount.add itr.subsidy
    let toTransfer ← acc.1.add owed
    let globals ← updateGlobals acc.2.globals itr.amount itr.subsidy true
    return (toTransfer,
      { acc.2 with globals := some globals, accountStake := acc.2.accountStake.erase itr.key })

/-- `check_blacklist`. -/
def checkBlacklist (s : State) (account : Name) : Result Unit :=
  check (s.blacklist.find account = none) "account is blacklisted."

/-- `unstake_unlocked`: the new state and the inline transfer it sends. -/
def unstakeUnlocked (self : Name) (s : State) (account : Name) (timestamp : ℕ) :
    Result (State × TransferAction) := do
  checkBlacklist s account
  let (toTransfer, s) ← (s.stakesOf account).foldlM (unstakeRow timestamp) (⟨0, vtx⟩, s)
  return (s, ⟨⟨self, active⟩, self, account, toTransfer, "unstaking fund"⟩)

/-- `unstake`; the notification of `VOTING_CONTRACT` is the caller's to deliver. -/
def unstake (self : Name) (ctx : Ctx) (s : State) (owner : Name) :
    Result (State × TransferAction) := do
  check (hasAuth ctx.auths owner ∨ hasAuth ctx.auths self) "Auth failed"
  unstakeUnlocked self s owner ctx.now

/-! ## Administration -/

/-- `initglobal`. -/
def initglobal (s : State) : State := { s with globals := some (s.globals.getD {}) }

/-- `addblacklist`. -/
def addblacklist (self : Name) (ctx : Ctx) (s : State) (account : Name) : Result State := do
  requireAuth ctx.auths self
  if s.blacklist.find account = none then
    let blacklist ← s.blacklist.emplace account
    return { s with blacklist := blacklist }
  else return s

/-- `rmblacklist`. -/
def rmblacklist (self : Name) (ctx : Ctx) (s : State) (account : Name) : Result State := do
  requireAuth ctx.auths self
  if s.blacklist.find account ≠ none then
    return { s with blacklist := s.blacklist.erase account }
  else return s

/-- `clearstakes`. -/
def clearstakes (self : Name) (ctx : Ctx) (s : State) (account : Name) : Result State := do
  requireAuth ctx.auths self
  return { s with accountStake := s.accountStake.filter (fun r => decide (r.account ≠ account)) }

/-- `clearglobals`. -/
def clearglobals (self : Name) (ctx : Ctx) (s : State) : Result State := do
  requireAuth ctx.auths self
  return { s with globals := some {} }

/-- `get_staked_amount`, what other contracts read. -/
def getStakedAmount (s : State) (account : Name) : Result Asset :=
  (s.stakesOf account).foldlM (fun stakedAmount itr => stakedAmount.add itr.amount) ⟨0, vtx⟩

end VDexNode.Stak
