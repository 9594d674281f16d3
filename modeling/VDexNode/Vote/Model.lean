import Mathlib.Algebra.Order.Field.Basic
import Mathlib.Data.List.Sort
import Mathlib.Data.Prod.Lex
import VDexNode.Stak.Model
import VDexNode.Token.Model

/-!
# VDexNode.Vote.Model — the voting contract `volentixvote`

Producers with their vote totals, and one row for each voter.  A vote undoes the previous one and
casts the new one; unstaking re-weighs it.

`D` stands for `double`, read as an ordered field with a square root; a quotient by zero, stored for
a voter with an empty list, is never used.
-/

namespace VDexNode.Vote

open Eosio

/-- `staking_contract`. -/
def stakingContract : Name := Name.ofString "vltxstakenow"

/-- The account whose `unstake` notifications `onUnstake` is declared for. -/
def unstakeNotifier : Name := Name.ofString "volentixstak"

/-- `vtx_precision`. -/
def vtxPrecision : ℤ := 100000000

/-- `job_id_bounds`. -/
def jobIdBounds : ℕ × ℕ := (1, 2)

/-! ## Tables -/

/-- A row of `producers`. -/
structure Producer (D : Type) where
  owner : Name
  totalVotes : D
  isActive : Bool
  producerName : String
  url : String
  key : String
  nodeId : String
  jobIds : List ℕ
deriving DecidableEq, Repr

/-- A row of `voters`. -/
structure Voter (D : Type) where
  owner : Name
  producers : List Name
  date : ℕ
  votesPerProd : D
  tokens : D
deriving DecidableEq, Repr

/-- The tables of the contract. -/
structure State (D : Type) where
  producers : Table (Producer.owner (D := D)) := Table.empty
  voters : Table (Voter.owner (D := D)) := Table.empty
deriving DecidableEq

/-- What an action is called with: its context, and the tables of the staking contract and of the
token contract, `vtx_account`. -/
structure Env extends Ctx where
  staking : Stak.State
  token : Token.State

section Actions

variable {D : Type} [Field D] [LinearOrder D]

/-! ## Producers -/

/-- `jobs_valid`. -/
def jobsValid (jobIds : List ℕ) : Bool :=
  jobIds.all (fun jobId => !(jobId < jobIdBounds.1 || jobIdBounds.2 < jobId))

/-- `regproducer`. -/
def regproducer (env : Env) (s : State D) (producer : Name) (producerName url key nodeId : String)
    (jobIds : List ℕ) : Result (State D) := do
  requireAuth env.auths producer
  check (jobsValid jobIds = true) "job ids vector is invalid"
  match s.producers.find producer with
  | some prod =>
    return { s with
      producers := s.producers.put
        { prod with isActive := true, producerName, url, key, nodeId, jobIds } }
  | none =>
    let producers ← s.producers.emplace
      { owner := producer, totalVotes := 0, isActive := true, producerName, url, key, nodeId,
        jobIds }
    return { s with producers := producers }

/-- `unregprod` and `activateprod`: the row of `producer` with the given flag. -/
def setActive (env : Env) (s : State D) (producer : Name) (isActive : Bool) :
    Result (State D) := do
  requireAuth env.auths producer
  let prod ← s.producers.get producer "producer not found"
  return { s with producers := s.producers.put { prod with isActive := isActive } }

/-- `unregprod`. -/
def unregprod (env : Env) (s : State D) (producer : Name) : Result (State D) :=
  setActive env s producer false

/-- `activateprod`. -/
def activateprod (env : Env) (s : State D) (producer : Name) : Result (State D) :=
  setActive env s producer true

/-- `unregprodall`: the loop ends at `end()`, and `end()` is erased once more. -/
def unregprodall (self : Name) (env : Env) (s : State D) : Result (State D) := do
  requireAuth env.auths self
  let producers ← s.producers.rows.foldlM (fun t itr => t.eraseAt (some itr)) s.producers
  let producers ← producers.eraseAt none
  return { s with producers := producers }

/-- `deluserinfo`: likewise. -/
def deluserinfo (self : Name) (env : Env) (s : State D) : Result (State D) := do
  requireAuth env.auths self
  let voters ← s.voters.rows.foldlM (fun t itr => t.eraseAt (some itr)) s.voters
  let voters ← voters.eraseAt none
  return { s with voters := voters }

/-! ## Votes -/

/-- One turn of the loop of `update_producers`. -/
def updateProducer (voterName : Name) (delta : D) (s : State D) (producer : Name) :
    Result (State D) := do
  check (producer ≠ voterName) "producer cannot vote for himself"
  let prod ← s.producers.get producer
    ("producer " ++ producer.toString ++ " is not currently registered")
  return { s with producers := s.producers.put { prod with totalVotes := prod.totalVotes + delta } }

/-- `update_producers`. -/
def updateProducers (s : State D) (voterName : Name) (producers : List Name) (votesPerProd : D)
    (undoPrevVote : Bool) : Result (State D) :=
  let delta := if undoPrevVote then -votesPerProd else votesPerProd
  producers.foldlM (updateProducer voterName delta) s

/-- `update_voters`; the date of a new row is `0` until it is set. -/
def updateVoters (s : State D) (voterName : Name) (producers : List Name) (votesPerProd tokens : D)
    (votingTime : ℕ) : Result (State D) :=
  match s.voters.find voterName with
  | some voter =>
    let date := if votingTime ≠ 0 then votingTime else voter.date
    return { s with
      voters := s.voters.put { voter with producers, votesPerProd, tokens, date } }
  | none => do
    let date := if votingTime ≠ 0 then votingTime else 0
    let voters ← s.voters.emplace { owner := voterName, producers, votesPerProd, tokens, date }
    return { s with voters := voters }

/-- `vote`. -/
def vote (sqrt : D → D) (s : State D) (voterName : Name) (producers : List Name)
    (balanceTokens : D) (votingTime : ℕ) : Result (State D) := do
  let votes := sqrt balanceTokens
  let votesPerProd := votes / (producers.length : D)
  let undone : Result (State D) := match s.voters.find voterName with
    | some voter => updateProducers s voterName voter.producers voter.votesPerProd true
    | none => .ok s
  let s ← undone
  let s ← updateProducers s voterName producers votesPerProd false
  updateVoters s voterName producers votesPerProd balanceTokens votingTime

/-- `voteproducer`. -/
def voteproducer (sqrt : D → D) (env : Env) (s : State D) (voterName : Name)
    (producers : List Name) : Result (State D) := do
  requireAuth env.auths voterName
  check (producers.length ≤ 21) "You must vote for not more than 21 producers"
  check (∀ producer ∈ producers, producer ≠ voterName) "producer cannot vote for himself"
  let staked ← Stak.getStakedAmount env.staking voterName
  let balanceTokens : D := (staked.amount.tdiv vtxPrecision : ℤ)
  check (10000 ≤ balanceTokens) "need at least 10000 VTX staked for vote"
  vote sqrt s voterName producers balanceTokens env.now

/-- `get_token_balance`. -/
def getTokenBalance (token : Token.State) (account : Name) : D :=
  match token.account account (SymbolCode.ofString "VTX") with
  | some it => (it.balance.amount.tdiv vtxPrecision : ℤ)
  | none => 0

/-- `updatevote`. -/
def updatevote (sqrt : D → D) (env : Env) (s : State D) (voterName : Name) : Result (State D) :=
  match s.voters.find voterName with
  | some voter =>
    let balanceTokens : D := getTokenBalance env.token voterName
    if 1 < balanceTokens then vote sqrt s voterName voter.producers balanceTokens 0
    else .ok s
  | none => .ok s

/-- `onUnstake`, the handler of `unstake` notifications. -/
def onUnstake (sqrt : D → D) (env : Env) (s : State D) (owner : Name) : Result (State D) := do
  requireAuth env.auths owner
  updatevote sqrt env s owner

/-! ## What other contracts read -/

/-- `by_votes`. -/
def Producer.byVotes (p : Producer D) : D := if p.isActive then -p.totalVotes else p.totalVotes

/-- The rows of the index `prototalvote`: by `by_votes`, then by primary key. -/
def State.protoTotalVote (s : State D) : List (Producer D) :=
  s.producers.rows.insertionSort
    (fun a b => toLex (a.byVotes, a.owner) ≤ toLex (b.byVotes, b.owner))

/-- `get_rank`: the position of the account in the index, `0` where it has none. -/
def getRank (s : State D) (account : Name) : ℕ :=
  let i := s.protoTotalVote.findIdx (fun o => decide (o.owner = account))
  if i < s.protoTotalVote.length then i else 0

/-- `get_top_nodes`: neither `top` nor `job_id` is looked at. -/
def getTopNodes (s : State D) (_top _jobId : ℕ) : List Name :=
  s.protoTotalVote.map Producer.owner

omit [Field D] [LinearOrder D] in
/-- `get_voters_by_time`, with the first and the last time; `user` is not looked at. -/
def getVotersByTime (s : State D) (first last : ℕ) (_user : Name) : List Name :=
  (s.voters.rows.filter (fun itr => decide (first ≤ itr.date ∧ itr.date ≤ last))).map Voter.owner

/-- `get_jobs`. -/
def getJobs (s : State D) (account : Name) : Result (List ℕ) := do
  let prod ← s.producers.get account "producer with this name doesn't exist"
  return prod.jobIds

end Actions

/-! ## Calls -/

/-- The actions of the contract and the notifications it handles. -/
inductive Action where
  | regproducer (producer : Name) (producerName url key nodeId : String) (jobIds : List ℕ)
  | unregprod (producer : Name)
  | activateprod (producer : Name)
  | unregprodall
  | deluserinfo
  | voteproducer (voterName : Name) (producers : List Name)
  | onUnstake (owner : Name)
deriving DecidableEq, Repr

section Step

variable {D : Type} [Field D] [LinearOrder D]

/-- One call. -/
def perform (sqrt : D → D) (self : Name) (env : Env) (s : State D) : Action → Result (State D)
  | .regproducer producer producerName url key nodeId jobIds =>
    regproducer env s producer producerName url key nodeId jobIds
  | .unregprod producer => unregprod env s producer
  | .activateprod producer => activateprod env s producer
  | .unregprodall => unregprodall self env s
  | .deluserinfo => deluserinfo self env s
  | .voteproducer voterName producers => voteproducer sqrt env s voterName producers
  | .onUnstake owner => onUnstake sqrt env s owner

/-- `perform` as a step; the contract sends no inline actions. -/
def step (sqrt : D → D) (self : Name) (s : State D) (call : Env × Action) :
    Result (State D × List Empty) := do
  let s ← perform sqrt self call.1 s call.2
  return (s, [])

end Step

end VDexNode.Vote
