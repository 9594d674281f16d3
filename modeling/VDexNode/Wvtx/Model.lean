import VDexNode.Token.Issuance

/-!
# VDexNode.Wvtx.Model — the token contract `vtx222222222`

The code of `volentixgsys` without restrictions, where an issue goes to the issuer only.  The tables
are the same; the table of restrictions, which this contract does not have, stays empty.
-/

namespace VDexNode.Wvtx

open Eosio

/-- The tables of the contract. -/
abbrev State := Token.State

/-- What an action is called with. -/
abbrev Env := Token.Env

/-! ## Actions -/

/-- `create`. -/
def create (self : Name) (env : Env) (s : State) (issuer : Name) (maximumSupply : Asset) :
    Result State :=
  Token.create self env s issuer maximumSupply

/-- `issue`. -/
def issue (env : Env) (s : State) (recipient : Name) (quantity : Asset) (memo : String) :
    Result State := do
  check quantity.symbol.isValid "invalid symbol name"
  check (memo.utf8ByteSize ≤ 256) "memo has more than 256 bytes"
  let st ← s.stats.get quantity.symbol.code
    "token with symbol does not exist, create token before issue"
  check (recipient = st.issuer) "tokens can only be issued to issuer account"
  requireAuth env.auths st.issuer
  check quantity.isValid "invalid quantity"
  check (0 < quantity.amount) "must issue positive quantity"
  check (quantity.symbol = st.supply.symbol) "symbol precision mismatch"
  check (quantity.amount ≤ st.maxSupply.amount - st.supply.amount)
    "quantity exceeds available supply"
  let supply ← st.supply.add quantity
  Token.addBalance { s with stats := s.stats.put { st with supply := supply } } st.issuer quantity

/-- `retire`. -/
def retire (env : Env) (s : State) (quantity : Asset) (memo : String) : Result State :=
  Token.retire env s quantity memo

/-- `transfer`. -/
def transfer (env : Env) (s : State) (sender recipient : Name) (quantity : Asset) (memo : String) :
    Result State := do
  check (sender ≠ recipient) "cannot transfer to self"
  requireAuth env.auths sender
  check (env.isAccount recipient = true) "to account does not exist"
  let st ← s.stats.get quantity.symbol.code "unable to find key"
  check quantity.isValid "invalid quantity"
  check (0 < quantity.amount) "must transfer positive quantity"
  check (quantity.symbol = st.supply.symbol) "symbol precision mismatch"
  check (memo.utf8ByteSize ≤ 256) "memo has more than 256 bytes"
  let s ← Token.subBalance s sender quantity
  Token.addBalance s recipient quantity

/-- `open`. -/
def openAccount (env : Env) (s : State) (owner : Name) (symbol : Symbol) (ramPayer : Name) :
    Result State := do
  requireAuth env.auths ramPayer
  check (env.isAccount owner = true) "owner account does not exist"
  let st ← s.stats.get symbol.code "symbol does not exist"
  check (st.supply.symbol = symbol) "symbol precision mismatch"
  match s.account owner symbol.code with
  | none =>
    let accounts ← s.accounts.emplace ⟨owner, ⟨0, symbol⟩⟩
    return { s with accounts := accounts }
  | some _ => return s

/-- `close`. -/
def close (env : Env) (s : State) (owner : Name) (symbol : Symbol) : Result State :=
  Token.close env s owner symbol

/-! ## Transactions -/

/-- The actions of the contract. -/
inductive Action where
  | create (issuer : Name) (maximumSupply : Asset)
  | issue (recipient : Name) (quantity : Asset) (memo : String)
  | retire (quantity : Asset) (memo : String)
  | transfer (sender recipient : Name) (quantity : Asset) (memo : String)
  | open (owner : Name) (symbol : Symbol) (ramPayer : Name)
  | close (owner : Name) (symbol : Symbol)
deriving DecidableEq, Repr

/-- An action. -/
def perform (self : Name) (s : State) (env : Env) : Action → Result State
  | .create issuer maximumSupply => create self env s issuer maximumSupply
  | .issue recipient quantity memo => issue env s recipient quantity memo
  | .retire quantity memo => retire env s quantity memo
  | .transfer sender recipient quantity memo => transfer env s sender recipient quantity memo
  | .open owner symbol ramPayer => openAccount env s owner symbol ramPayer
  | .close owner symbol => close env s owner symbol

/-- One transaction; no action sends another. -/
def step (self : Name) (s : State) (call : Env × Action) : Result (State × List Empty) := do
  let s ← perform self s call.1 call.2
  return (s, [])

end VDexNode.Wvtx
