import VDexNode.Stak.Model

/-!
# VDexNode.Custodian.Model — the bridge custodian `vltxcstdn`

Oracles report the Ethereum balance with `updtblnc`; reports are kept in a window of at most eight.
When the window agrees, the contract retires the difference to its stored balance.

The locals `same` and `previous` of `updtblnc` are read before they are written; their first values
are parameters.
-/

namespace VDexNode.Custodian

open Eosio

/-- `TOKEN_ACC`. -/
def tokenAcc : Name := Name.ofString "volentixtsys"

/-- `vtx_precision`. -/
def vtxPrecision : ℤ := 100000000

/-! ## Tables -/

/-- A row of `balances`. -/
structure Report where
  id : ℕ
  account : Name
  balance : UInt64
  timestamp : ℕ
  localTimestamp : ℕ
deriving DecidableEq, Repr

/-- The tables of the contract. -/
structure State where
  balances : Table Report.id := Table.empty
  currentbal : Option UInt64 := none
  nodelist : Table (id : Name → Name) := Table.empty
deriving DecidableEq

/-- What an action is called with: its context, the tables of the staking contract, and whether the
token contract lets an inline `retire` through. -/
structure Env extends Ctx where
  staking : Stak.State
  accepted : Bool := true

/-- The inline `retire` sent to the token contract. -/
structure RetireAction where
  auth : PermissionLevel
  quantity : Asset
  memo : String
deriving DecidableEq, Repr

/-- A retirement: the report that caused it, the reports that were in the table before it, and the
action sent. -/
structure Retirement where
  report : Report
  earlier : List Report
  action : RetireAction
deriving DecidableEq, Repr

/-! ## Administration -/

/-- `initbalance`. -/
def initbalance (self : Name) (env : Env) (s : State) (balance : UInt64) :
    Result State := do
  requireAuth env.auths self
  return { s with currentbal := some balance }

/-- `clearblnc`. -/
def clearblnc (self : Name) (env : Env) (s : State) : Result State := do
  requireAuth env.auths self
  return { s with balances := Table.empty }

/-- `regnode`. -/
def regnode (self : Name) (env : Env) (s : State) (account : Name) : Result State := do
  requireAuth env.auths self
  if s.nodelist.find account = none then
    let nodelist ← s.nodelist.emplace account
    return { s with nodelist := nodelist }
  else return s

/-- `rmnode`. -/
def rmnode (self : Name) (env : Env) (s : State) (account : Name) : Result State := do
  requireAuth env.auths self
  if s.nodelist.find account ≠ none then
    return { s with nodelist := s.nodelist.erase account }
  else return s

/-- `checknode`. -/
def checknode (s : State) (account : Name) : Result Unit :=
  check (s.nodelist.find account ≠ none) "account is not listed."

/-! ## Reports -/

/-- The counters of the loop over the reports. -/
structure Counters where
  same : ℕ
  previous : UInt64
  size : ℕ
deriving DecidableEq, Repr

/-- One turn of the loop. -/
def Counters.next (c : Counters) (itr : Report) : Counters where
  same := if itr.balance = c.previous then (c.same + 1) % 2 ^ 64 else c.same
  previous := itr.balance
  size := c.size + 1

/-- `same / size > .666666`: both are integers, and so is their quotient. -/
def Counters.majority (c : Counters) : Prop := c.size ≠ 0 ∧ 666666 < 1000000 * (c.same / c.size)

instance (c : Counters) : Decidable c.majority := inferInstanceAs (Decidable (_ ∧ _))

/-- The reports the loop runs over.  `itr` is taken before the insertion: on an empty table it is
`end()`, and stays so. -/
def counted (earlier balances : Table Report.id) : List Report :=
  if earlier.rows = [] then [] else balances.rows

/-- Above eight reports the oldest goes. -/
def dropOldest (size : ℕ) (balances : Table Report.id) : Table Report.id :=
  match balances.rows with
  | oldest :: _ => if 8 < size then balances.erase oldest.id else balances
  | [] => balances

/-- Conversion of a `uint64_t` to `int64_t`. -/
def toInt64 (n : UInt64) : ℤ := if n.toNat < 2 ^ 63 then n.toNat else n.toNat - 2 ^ 64

/-- The first half of `updtblnc`: the checks, and the new row with the table it is stored in. -/
def addReport (env : Env) (s : State) (account : Name) (balance : UInt64) (timestamp : ℕ) :
    Result (Report × Table Report.id) := do
  requireAuth env.auths account
  let staked ← Stak.getStakedAmount env.staking account
  let balanceTokens := staked.amount.tdiv vtxPrecision
  check (10000 ≤ balanceTokens) ("assertion failure with error code: " ++ toString balanceTokens)
  let id ← s.balances.availablePrimaryKey (fun _ => true) Report.id
  let report : Report := ⟨id, account, balance, timestamp % 2 ^ 32, env.now⟩
  let balances ← s.balances.emplace report
  return (report, balances)

/-- The token contract retires positive quantities only. -/
def sendRetire (env : Env) (a : RetireAction) : Result Unit := do
  check (0 < a.quantity.amount) "must retire positive quantity"
  check (env.accepted = true) "transaction rejected"

/-- `updtblnc`, with the values the locals `same` and `previous` start from. -/
def updtblnc (same : ℕ) (previous : UInt64) (env : Env) (s : State) (account : Name)
    (balance : UInt64) (timestamp : ℕ) : Result (State × List Retirement) := do
  let (report, balances) ← addReport env s account balance timestamp
  let some currentBalance := s.currentbal | .error "singleton does not exist"
  let c := (counted s.balances balances).foldl Counters.next ⟨same, previous, 0⟩
  let balances := dropOldest c.size balances
  let amountToTransfer := currentBalance - balance
  check (0 ≤ amountToTransfer) ("Impossible amount to transfer: " ++ toString amountToTransfer)
  if 0 < amountToTransfer ∧ c.majority then
    let eosBalance ← Asset.make (toInt64 amountToTransfer) Stak.vtx
    let action : RetireAction := ⟨⟨tokenAcc, active⟩, eosBalance, "test"⟩
    sendRetire env action
    return ({ s with balances := balances, currentbal := some balance },
      [⟨report, s.balances.rows, action⟩])
  else return ({ s with balances := balances }, [])

/-! ## Calls -/

/-- The actions of the contract. -/
inductive Action where
  | initbalance (balance : UInt64)
  | clearblnc
  | regnode (account : Name)
  | rmnode (account : Name)
  | updtblnc (account : Name) (balance : UInt64) (timestamp : ℕ)
deriving DecidableEq, Repr

/-- One action: the new state and the retirements it causes. -/
def step (self : Name) (same : ℕ) (previous : UInt64) (s : State) (call : Env × Action) :
    Result (State × List Retirement) :=
  match call.2 with
  | .initbalance balance => do
    let s ← initbalance self call.1 s balance
    return (s, [])
  | .clearblnc => do
    let s ← clearblnc self call.1 s
    return (s, [])
  | .regnode account => do
    let s ← regnode self call.1 s account
    return (s, [])
  | .rmnode account => do
    let s ← rmnode self call.1 s account
    return (s, [])
  | .updtblnc account balance timestamp =>
    updtblnc same previous call.1 s account balance timestamp

end VDexNode.Custodian
