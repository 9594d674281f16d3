import VDexNode.Stak.Spec
import VDexNode.Token.Spec
import VDexNode.Vote.Model

/-!
# VDexNode.System.Model — the contracts on one chain

* `Bank`: the token contract and a staking contract, deployed as `self`.  A transfer notifies the
  staking contract when it is one of the two parties; an unstake sends its payout through the token
  contract.
* `Chain`: a `Bank` whose staking contract is the one `voteproducer` reads, and the voting contract.
  The voting contract handles the `unstake` notifications of one account; those of any deployment
  under that name are calls of its own.
-/

namespace VDexNode.System

open Eosio

/-! ## Token and staking -/

/-- The tables of the token contract and of the staking contract. -/
structure Bank where
  token : Token.State
  stak : Stak.State
deriving DecidableEq

/-- What a transaction is called with: its context, which accounts exist, and whether the other
accounts that are notified let it through. -/
structure Env extends Token.Env where
  accepted : Bool := true

/-- A token transfer with the notification of the staking contract. -/
def deliver (rule : Stak.SubsidyRule) (self : Name) (env : Token.Env) (s : Bank)
    (sender recipient : Name) (quantity : Asset) (memo : String) : Result Bank := do
  let token ← Token.transfer env s.token sender recipient quantity memo
  let notified : Result Stak.State := if sender = self ∨ recipient = self then
      Stak.onTransfer rule self env.now s.stak sender recipient quantity memo
    else .ok s.stak
  let stak ← notified
  return ⟨token, stak⟩

/-- `unstake` with the inline transfer it sends. -/
def unstake (rule : Stak.SubsidyRule) (self : Name) (env : Env) (s : Bank) (owner : Name) :
    Result Bank := do
  let (stak, t) ← Stak.unstake self env.toCtx s.stak owner
  check (env.accepted = true) "transaction rejected"
  deliver rule self { env.toEnv with auths := [t.auth] } { s with stak := stak } t.sender
    t.recipient t.quantity t.memo

/-- The actions on a `Bank`. -/
inductive Action where
  | transfer (sender recipient : Name) (quantity : Asset) (memo : String)
  | unstake (owner : Name)
  | initglobal
  | addblacklist (account : Name)
  | rmblacklist (account : Name)
deriving DecidableEq, Repr

/-- What a call moved: the transfer that was called for, if any, and the rows that were paid. -/
structure Receipt where
  transfer : Option (Name × Name × Asset)
  paid : List Stak.Stake
deriving DecidableEq, Repr

/-- One transaction. -/
def bankStep (rule : Stak.SubsidyRule) (self : Name) (s : Bank) (call : Env × Action) :
    Result (Bank × List Receipt) :=
  match call.2 with
  | .transfer sender recipient quantity memo => do
    let s ← deliver rule self call.1.toEnv s sender recipient quantity memo
    check (call.1.accepted = true) "transaction rejected"
    return (s, [⟨some (sender, recipient, quantity), []⟩])
  | .unstake owner => do
    let s' ← unstake rule self call.1 s owner
    return (s', [⟨none, s.stak.due owner call.1.now⟩])
  | .initglobal => .ok ({ s with stak := Stak.initglobal s.stak }, [⟨none, []⟩])
  | .addblacklist account => do
    let stak ← Stak.addblacklist self call.1.toCtx s.stak account
    return ({ s with stak := stak }, [⟨none, []⟩])
  | .rmblacklist account => do
    let stak ← Stak.rmblacklist self call.1.toCtx s.stak account
    return ({ s with stak := stak }, [⟨none, []⟩])

/-! ## Voting -/

/-- The tables of the three contracts. -/
structure Chain (D : Type) where
  bank : Bank
  vote : Vote.State D
deriving DecidableEq

/-- The actions on a `Chain`: those on the bank, and those of the voting contract, the notifications
it handles among them. -/
inductive ChainAction where
  | bank (action : Action)
  | vote (action : Vote.Action)
deriving DecidableEq, Repr

section Chain

variable {D : Type} [Field D] [LinearOrder D]

/-- One transaction.  The notification of an `unstake` comes from `vltxstakenow`. -/
def chainStep (sqrt : D → D) (rule : Stak.SubsidyRule) (voting : Name) (s : Chain D)
    (call : Env × ChainAction) : Result (Chain D × List Empty) :=
  match call.2 with
  | .bank action => do
    let (bank, _) ← bankStep rule Vote.stakingContract s.bank (call.1, action)
    let notified : Result (Vote.State D) := match action with
      | .unstake owner =>
        if Vote.stakingContract = Vote.unstakeNotifier then
          Vote.onUnstake sqrt ⟨call.1.toCtx, bank.stak, s.bank.token⟩ s.vote owner
        else .ok s.vote
      | _ => .ok s.vote
    let vote ← notified
    return (⟨bank, vote⟩, [])
  | .vote action => do
    let vote ← Vote.perform sqrt voting ⟨call.1.toCtx, s.bank.stak, s.bank.token⟩ s.vote action
    return ({ s with vote := vote }, [])

end Chain

end VDexNode.System
