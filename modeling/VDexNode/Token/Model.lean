import Mathlib.Data.Prod.Lex
import VDexNode.Eosio.Asset
import VDexNode.Eosio.MultiIndex

/-!
# VDexNode.Token.Model — the token contract `volentixgsys`

Balances by owner and symbol code, one `stat` row for each symbol code, and the restrictions, which
replace the authority of an account by a given permission when it transfers.

Which account pays for the memory of a row is not modelled.
-/

namespace VDexNode.Token

open Eosio

/-- `treasury`. -/
def treasury : Name := Name.ofString "vtxtestpool1"

/-! ## Tables -/

/-- A row of `accounts`, with the owner whose scope it is in. -/
structure Account where
  owner : Name
  balance : Asset
deriving DecidableEq, Repr

/-- Scope and primary key of a balance row. -/
def Account.key (a : Account) : Name ×ₗ SymbolCode := toLex (a.owner, a.balance.symbol.code)

/-- A row of `stat`; its scope is its primary key. -/
structure CurrencyStats where
  supply : Asset
  maxSupply : Asset
  issuer : Name
deriving DecidableEq, Repr

/-- The primary key of a `stat` row. -/
def CurrencyStats.code (st : CurrencyStats) : SymbolCode := st.supply.symbol.code

/-- A row of `restriction`. -/
structure Restriction where
  account : Name
  code : Name
  permission : Name
deriving DecidableEq, Repr

/-- The tables of the contract. -/
structure State where
  accounts : Table Account.key := Table.empty
  stats : Table CurrencyStats.code := Table.empty
  restrictions : Table Restriction.account := Table.empty
deriving DecidableEq

/-- What an action is called with: its context, and which accounts exist on the chain. -/
structure Env extends Ctx where
  isAccount : Name → Bool

/-- The balance row of `owner` in the code of `symbol`. -/
def State.account (s : State) (owner : Name) (code : SymbolCode) : Option Account :=
  s.accounts.find (toLex (owner, code))

/-! ## Restrictions -/

/-- `arestriction`. -/
def arestriction (env : Env) (s : State) (account code permission : Name) : Result State := do
  requireAuth env.auths treasury
  return { s with restrictions := s.restrictions.put ⟨account, code, permission⟩ }

/-- `erestriction`. -/
def erestriction (env : Env) (s : State) (account : Name) : Result State := do
  requireAuth env.auths treasury
  check (s.restrictions.find account ≠ none) "restrictions does not exist"
  return { s with restrictions := s.restrictions.erase account }

/-! ## Balances -/

/-- `sub_balance`. -/
def subBalance (s : State) (owner : Name) (value : Asset) : Result State := do
  let row ← s.accounts.get (toLex (owner, value.symbol.code)) "no balance object found"
  check (value.amount ≤ row.balance.amount) "overdrawn balance"
  let balance ← row.balance.sub value
  return { s with accounts := s.accounts.put ⟨owner, balance⟩ }

/-- `add_balance`. -/
def addBalance (s : State) (owner : Name) (value : Asset) : Result State :=
  match s.account owner value.symbol.code with
  | none => do
    let accounts ← s.accounts.emplace ⟨owner, value⟩
    return { s with accounts := accounts }
  | some row => do
    let balance ← row.balance.add value
    return { s with accounts := s.accounts.put ⟨owner, balance⟩ }

/-! ## Actions -/

/-- `create`. -/
def create (self : Name) (env : Env) (s : State) (issuer : Name) (maximumSupply : Asset) :
    Result State := do
  requireAuth env.auths self
  let sym := maximumSupply.symbol
  check sym.isValid "invalid symbol name"
  check maximumSupply.isValid "invalid supply"
  check (0 < maximumSupply.amount) "max-supply must be positive"
  check (s.stats.find sym.code = none) "token with symbol already exists"
  let stats ← s.stats.emplace ⟨⟨0, sym⟩, maximumSupply, issuer⟩
  return { s with stats := stats }

/-- The authority `transfer` asks for: that of `sender`, unless it is restricted. -/
def requireSender (env : Env) (s : State) (sender : Name) : Result Unit :=
  match s.restrictions.find sender with
  | some r => requireAuthLevel env.auths ⟨r.code, r.permission⟩
  | none => requireAuth env.auths sender

/-- `transfer`; the notifications of `sender` and `recipient` are the caller's to deliver. -/
def transfer (env : Env) (s : State) (sender recipient : Name) (quantity : Asset) (memo : String) :
    Result State := do
  requireSender env s sender
  check (sender ≠ recipient) "cannot transfer to self"
  check (env.isAccount recipient = true) "to account does not exist"
  let st ← s.stats.get quantity.symbol.code "unable to find key"
  check quantity.isValid "invalid quantity"
  check (0 < quantity.amount) "must transfer positive quantity"
  check (quantity.symbol = st.supply.symbol) "symbol precision mismatch"
  check (memo.utf8ByteSize ≤ 256) "memo has more than 256 bytes"
  let s ← subBalance s sender quantity
  addBalance s recipient quantity

/-- `issue`: the new state, and the inline transfer it sends when `recipient` is not the issuer. -/
def issue (env : Env) (s : State) (recipient : Name) (quantity : Asset) (memo : String) :
    Result (State × Option TransferAction) := do
  check quantity.symbol.isValid "invalid symbol name"
  check (memo.utf8ByteSize ≤ 256) "memo has more than 256 bytes"
  let st ← s.stats.get quantity.symbol.code
    "token with symbol does not exist, create token before issue"
  requireAuth env.auths st.issuer
  check quantity.isValid "invalid quantity"
  check (0 < quantity.amount) "must issue positive quantity"
  check (quantity.symbol = st.supply.symbol) "symbol precision mismatch"
  check (quantity.amount ≤ st.maxSupply.amount - st.supply.amount)
    "quantity exceeds available supply"
  let supply ← st.supply.add quantity
  let s ← addBalance { s with stats := s.stats.put { st with supply := supply } } st.issuer quantity
  if recipient ≠ st.issuer then
    return (s, some ⟨⟨st.issuer, active⟩, st.issuer, recipient, quantity, memo⟩)
  else return (s, none)

/-- `retire`. -/
def retire (env : Env) (s : State) (quantity : Asset) (memo : String) : Result State := do
  check quantity.symbol.isValid "invalid symbol name"
  check (memo.utf8ByteSize ≤ 256) "memo has more than 256 bytes"
  let st ← s.stats.get quantity.symbol.code "token with symbol does not exist"
  requireAuth env.auths st.issuer
  check quantity.isValid "invalid quantity"
  check (0 < quantity.amount) "must retire positive quantity"
  check (quantity.symbol = st.supply.symbol) "symbol precision mismatch"
  let supply ← st.supply.sub quantity
  subBalance { s with stats := s.stats.put { st with supply := supply } } st.issuer quantity

/-- `open`. -/
def openAccount (env : Env) (s : State) (owner : Name) (symbol : Symbol) (ramPayer : Name) :
    Result State := do
  requireAuth env.auths ramPayer
  let st ← s.stats.get symbol.code "symbol does not exist"
  check (st.supply.symbol = symbol) "symbol precision mismatch"
  match s.account owner symbol.code with
  | none =>
    let accounts ← s.accounts.emplace ⟨owner, ⟨0, symbol⟩⟩
    return { s with accounts := accounts }
  | some _ => return s

/-- `close`. -/
def close (env : Env) (s : State) (owner : Name) (symbol : Symbol) : Result State := do
  requireAuth env.auths owner
  let row ← s.accounts.get (toLex (owner, symbol.code))
    "Balance row already deleted or never existed. Action won't have any effect."
  check (row.balance.amount = 0) "Cannot close because the balance is not zero."
  return { s with accounts := s.accounts.erase (toLex (owner, symbol.code)) }

/-! ## Transactions -/

/-- The actions of the contract. -/
inductive Action where
  | create (issuer : Name) (maximumSupply : Asset)
  | issue (recipient : Name) (quantity : Asset) (memo : String)
  | retire (quantity : Asset) (memo : String)
  | transfer (sender recipient : Name) (quantity : Asset) (memo : String)
  | open (owner : Name) (symbol : Symbol) (ramPayer : Name)
  | close (owner : Name) (symbol : Symbol)
  | arestriction (account code permission : Name)
  | erestriction (account : Name)
deriving DecidableEq, Repr

/-- An inline transfer runs with the one authority it was sent with. -/
def runInline (env : Env) (s : State) (t : TransferAction) : Result State :=
  transfer { env with auths := [t.auth] } s t.sender t.recipient t.quantity t.memo

/-- One action with the inline action it sends: the new state and the inline actions. -/
def step (self : Name) (s : State) (call : Env × Action) : Result (State × List TransferAction) :=
  match call.2 with
  | .create issuer maximumSupply => do
    let s ← create self call.1 s issuer maximumSupply
    return (s, [])
  | .issue recipient quantity memo => do
    let (s, inline) ← issue call.1 s recipient quantity memo
    match inline with
    | none => return (s, [])
    | some t =>
      let s ← runInline call.1 s t
      return (s, [t])
  | .retire quantity memo => do
    let s ← retire call.1 s quantity memo
    return (s, [])
  | .transfer sender recipient quantity memo => do
    let s ← transfer call.1 s sender recipient quantity memo
    return (s, [])
  | .open owner symbol ramPayer => do
    let s ← openAccount call.1 s owner symbol ramPayer
    return (s, [])
  | .close owner symbol => do
    let s ← close call.1 s owner symbol
    return (s, [])
  | .arestriction account code permission => do
    let s ← arestriction call.1 s account code permission
    return (s, [])
  | .erestriction account => do
    let s ← erestriction call.1 s account
    return (s, [])

end VDexNode.Token
