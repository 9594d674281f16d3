import VDexNode.Vote.Model

/-!
# VDexNode.Distribut.Model — the reward contract `vtxdistribut`

`calcrewards` adds a pending reward row for every producer, at most once per period; `getreward`
pays all pending rows of a node and erases them; `uptime` does the first for the jobs 1 and 2 and
the second for every producer.  The tables of the voting contract are read at each call.
-/

namespace VDexNode.Distribut

open Eosio

/-- `treasury`. -/
def treasury : Name := Name.ofString "vistribution"

/-! ## Tables -/

/-- A row of `rewards`. -/
structure RewardInfo where
  rewardId : ℕ
  rewardPeriod : ℕ
  rewardAmount : Asset
  standbyAmount : Asset
  rankThreshold : ℕ
  standbyRankThreshold : ℕ
  memo : String
  standbyMemo : String
deriving DecidableEq, Repr

/-- A row of `rewardhistor`. -/
structure RewardHistory where
  rewardId : ℕ
  lastTimestamp : ℕ
deriving DecidableEq, Repr

/-- A row of `nodereward`, with the node whose scope it is in. -/
structure NodeReward where
  node : Name
  id : ℕ
  amount : Asset
  memo : String
deriving DecidableEq, Repr

/-- Scope and primary key of a pending reward. -/
def NodeReward.key (r : NodeReward) : Name ×ₗ ℕ := toLex (r.node, r.id)

/-- A row of `inituptime`. -/
structure InitUptime where
  account : Name
  initUptime : ℕ
deriving DecidableEq, Repr

/-- The tables of the contract. -/
structure State where
  rewards : Table RewardInfo.rewardId := Table.empty
  rewardhistory : Table RewardHistory.rewardId := Table.empty
  nodeReward : Table NodeReward.key := Table.empty
  usblacklist : Table (id : Name → Name) := Table.empty
  inituptime : Table InitUptime.account := Table.empty
deriving DecidableEq

/-- The rows in the scope of `node`, in key order. -/
def State.rewardsOf (s : State) (node : Name) : List NodeReward :=
  (s.nodeReward.filter (fun r => decide (r.node = node))).rows

/-- What an action is called with: its context, the tables of the voting contract, and which inline
transfers the token contract lets through. -/
structure Env (D : Type) extends Ctx where
  voting : Vote.State D
  accepted : TransferAction → Bool := fun _ => true

/-- A pending row added by `calcrewards`, with the job it was calculated for and the time. -/
structure Credit where
  time : ℕ
  jobId : ℕ
  row : NodeReward
deriving DecidableEq, Repr

/-! ## Rewards -/

/-- `setrewardrule`. -/
def setrewardrule (ctx : Ctx) (s : State) (rule : RewardInfo) : Result State := do
  requireAuth ctx.auths treasury
  return { s with rewards := s.rewards.put rule }

/-- `add_reward`. -/
def addReward (s : State) (node : Name) (amount : Asset) (memo : String) :
    Result (State × NodeReward) := do
  let id ← s.nodeReward.availablePrimaryKey (fun r => decide (r.node = node)) NodeReward.id
  let row : NodeReward := ⟨node, id, amount, memo⟩
  let nodeReward ← s.nodeReward.emplace row
  return ({ s with nodeReward := nodeReward }, row)

/-- The period check of `calcrewards`, and the history with the new time. -/
def stampHistory (now : ℕ) (s : State) (rewardIter : RewardInfo) (jobId : ℕ) : Result State :=
  match s.rewardhistory.find jobId with
  | none => do
    let rewardhistory ← s.rewardhistory.emplace ⟨jobId, now⟩
    return { s with rewardhistory := rewardhistory }
  | some historyIter => do
    check ((historyIter.lastTimestamp + rewardIter.rewardPeriod) % 2 ^ 32 ≤ now)
      "rewards for previous period have been already calculated"
    return { s with
      rewardhistory := s.rewardhistory.put { historyIter with lastTimestamp := now } }

/-- `payreward`: the inline transfer it sends. -/
def payreward (self : Name) (account : Name) (quantity : Asset) (memo : String) : TransferAction :=
  ⟨⟨self, active⟩, self, account, quantity, memo⟩

/-- The loop of `getreward`: pay a row and erase it. -/
def payRow (self : Name) (acc : State × List TransferAction) (itr : NodeReward) :
    State × List TransferAction :=
  ({ acc.1 with nodeReward := acc.1.nodeReward.erase itr.key },
    acc.2 ++ [payreward self itr.node itr.amount itr.memo])

/-- `getreward`. -/
def getreward (self : Name) (s : State) (node : Name) : State × List TransferAction :=
  (s.rewardsOf node).foldl (payRow self) (s, [])

section Votes

variable {D : Type} [Field D] [LinearOrder D]

/-- One turn of the loop of `calcrewards`. -/
def creditNode (env : Env D) (rewardIter : RewardInfo) (jobId : ℕ) (acc : State × List Credit)
    (node : Name) : Result (State × List Credit) := do
  let rank := Vote.getRank env.voting node
  let amount := if rank < rewardIter.rankThreshold then rewardIter.rewardAmount
    else rewardIter.standbyAmount
  let memo := toString jobId ++ " | " ++ toString (rank + 1) ++ " | " ++ toString env.now
  let (s, row) ← addReward acc.1 node amount memo
  return (s, acc.2 ++ [⟨env.now, jobId, row⟩])

/-- `calcrewards`: the new state and the rows it adds.  The rule read is always that of id 2. -/
def calcrewards (env : Env D) (s : State) (_account : Name) (jobId : ℕ) :
    Result (State × List Credit) := do
  let rewardIter ← s.rewards.get 2 "unknown job_id"
  let s ← stampHistory env.now s rewardIter jobId
  let topNodes := Vote.getTopNodes env.voting rewardIter.standbyRankThreshold jobId
  topNodes.foldlM (creditNode env rewardIter jobId) (s, [])

/-- One turn of the loop of `uptime` over the producers. -/
def payProducer {D : Type} (self : Name) (acc : State × List TransferAction)
    (itr : Vote.Producer D) : State × List TransferAction :=
  ((getreward self acc.1 itr.owner).1, acc.2 ++ (getreward self acc.1 itr.owner).2)

/-- `uptime`: the new state, the rows it adds and the transfers it sends. -/
def uptime (self : Name) (env : Env D) (s : State) (account : Name) (_nodeId _memo : String) :
    Result (State × List Credit × List TransferAction) := do
  let _jobIdsNew ← Vote.getJobs env.voting account
  let (s, credits₁) ← calcrewards env s account 1
  let (s, credits₂) ← calcrewards env s account 2
  let (s, transfers) := env.voting.producers.rows.foldl (payProducer self) (s, [])
  return (s, credits₁ ++ credits₂, transfers)

end Votes

/-! ## Nodes -/

/-- `addblacklist`; the address is not stored. -/
def addblacklist (ctx : Ctx) (s : State) (account : Name) (_ip : String) : Result State := do
  requireAuth ctx.auths account
  check (s.usblacklist.find account = none) "node already registered"
  let usblacklist ← s.usblacklist.emplace account
  return { s with usblacklist := usblacklist }

/-- `rmblacklist`. -/
def rmblacklist (ctx : Ctx) (s : State) (account : Name) : Result State := do
  requireAuth ctx.auths account
  check (s.usblacklist.find account ≠ none) "node not found"
  return { s with usblacklist := s.usblacklist.erase account }

/-- `initup`. -/
def initup (ctx : Ctx) (s : State) (account : Name) : Result State := do
  requireAuth ctx.auths account
  check (s.inituptime.find account = none) "node already registered"
  let inituptime ← s.inituptime.emplace ⟨account, ctx.now⟩
  return { s with inituptime := inituptime }

/-- `rmup`. -/
def rmup (ctx : Ctx) (s : State) (account : Name) : Result State := do
  requireAuth ctx.auths account
  check (s.inituptime.find account ≠ none) "node not found"
  return { s with inituptime := s.inituptime.erase account }

/-- `checkblacklist`; no action calls it. -/
def checkblacklist (s : State) (account : Name) : Result Unit :=
  check (s.usblacklist.find account = none)
    "Your IP is from a restricted country, cannot proceed with reward"

/-! ## Calls -/

/-- The actions the contract dispatches. -/
inductive Action where
  | setrewardrule (rule : RewardInfo)
  | getreward (node : Name)
  | calcrewards (account : Name) (jobId : ℕ)
  | uptime (account : Name) (nodeId memo : String)
  | addblacklist (account : Name) (ip : String)
  | rmblacklist (account : Name)
  | initup (account : Name)
  | rmup (account : Name)
deriving DecidableEq, Repr

/-- What a call did: the pending rows it added and the transfers it sent. -/
structure Receipt where
  credits : List Credit
  transfers : List TransferAction
deriving DecidableEq, Repr

section Step

variable {D : Type} [Field D] [LinearOrder D]

/-- An action with what it adds and sends. -/
def perform (self : Name) (s : State) (env : Env D) : Action → Result (State × Receipt)
  | .setrewardrule rule => do
    let s ← setrewardrule env.toCtx s rule
    return (s, ⟨[], []⟩)
  | .getreward node => .ok ((getreward self s node).1, ⟨[], (getreward self s node).2⟩)
  | .calcrewards account jobId => do
    let (s, credits) ← calcrewards env s account jobId
    return (s, ⟨credits, []⟩)
  | .uptime account nodeId memo => do
    let (s, credits, transfers) ← uptime self env s account nodeId memo
    return (s, ⟨credits, transfers⟩)
  | .addblacklist account ip => do
    let s ← addblacklist env.toCtx s account ip
    return (s, ⟨[], []⟩)
  | .rmblacklist account => do
    let s ← rmblacklist env.toCtx s account
    return (s, ⟨[], []⟩)
  | .initup account => do
    let s ← initup env.toCtx s account
    return (s, ⟨[], []⟩)
  | .rmup account => do
    let s ← rmup env.toCtx s account
    return (s, ⟨[], []⟩)

/-- One call; it aborts as well when one of its transfers is rejected. -/
def step (self : Name) (s : State) (call : Env D × Action) : Result (State × List Receipt) := do
  let (s, receipt) ← perform self s call.1 call.2
  check (∀ t ∈ receipt.transfers, call.1.accepted t = true) "transaction rejected"
  return (s, [receipt])

end Step

end VDexNode.Distribut
