import VDexNode.Stak.Payout
import VDexNode.System.Model
import VDexNode.Token.Supply
import VDexNode.Vote.Integrity

/-!
# VDexNode.System.Authority — an unstake under either authority

`unstake` takes the authority of the owner or of the staking contract.  The voting contract, which
is notified of the unstakes of `volentixstak`, takes that of the owner only, so a transaction
authorised by the staking contract alone always aborts.

* `Payable` : the payout of an owner can be made.
* `paths_agree_iff` : **the two ways agree exactly where neither goes through, that is, where the
  payout cannot be made.**
-/

namespace VDexNode.System

open Eosio

section Authority

variable {D : Type} [Field D] [LinearOrder D]

/-- The transaction of an `unstake` of `volentixstak`: the action, then the notification of the
voting contract, then the inline transfer. -/
def unstakeNotified (sqrt : D → D) (rule : Stak.SubsidyRule) (env : Env) (s : Chain D)
    (owner : Name) : Result (Chain D) := do
  let (stak, t) ← Stak.unstake Vote.unstakeNotifier env.toCtx s.bank.stak owner
  let vote ← Vote.onUnstake sqrt ⟨env.toCtx, stak, s.bank.token⟩ s.vote owner
  check (env.accepted = true) "transaction rejected"
  let bank ← deliver rule Vote.unstakeNotifier { env.toEnv with auths := [t.auth] }
    { s.bank with stak := stak } t.sender t.recipient t.quantity t.memo
  return ⟨bank, vote⟩

/-- What is due to an owner. -/
def Bank.dueTo (s : Bank) (owner : Name) (now : ℕ) : ℤ :=
  ((s.stak.due owner now).map Stak.Stake.owed).sum

/-- The payout can be made: it is positive, the contract holds it in VTX,8 and may transfer, the
owner is another account and those notified accept, and the principal can be taken out of the
totals. -/
structure Payable (env : Env) (s : Bank) (owner : Name) : Prop where
  positive : 0 < s.dueTo owner env.now
  covered : s.dueTo owner env.now ≤ s.token.balance Vote.unstakeNotifier Stak.vtx.code
  currency : ∃ st ∈ s.token.stats.find Stak.vtx.code, st.supply.symbol = Stak.vtx
  permitted : Token.requireSender { env.toEnv with auths := [⟨Vote.unstakeNotifier, active⟩] }
    s.token Vote.unstakeNotifier = .ok ()
  other : owner ≠ Vote.unstakeNotifier
  account : env.isAccount owner = true
  accepted : env.accepted = true
  totals : Stak.Withdrawable s.stak.globals (s.stak.due owner env.now)

/-- The authorities are the staking contract's own. -/
def ByContract (auths : List PermissionLevel) : Prop :=
  auths ≠ [] ∧ ∀ p ∈ auths, p.actor = Vote.unstakeNotifier

section Paths

variable (sqrt : D → D) (rule : Stak.SubsidyRule) (env : Env) {s s' : Chain D} {owner : Name}

variable {sqrt rule env} in
/-- The contract's own authority gets no unstake through. -/
theorem byContract_aborts (hauths : ByContract env.auths) :
    unstakeNotified sqrt rule env s owner ≠ .ok s' := by
  intro h
  simp only [unstakeNotified, deliver, bind_eq_ok] at h
  obtain ⟨⟨stak, t⟩, hunstake, vote, hvote, _, -, _, ⟨_, htransfer, -⟩, -⟩ := h
  obtain ⟨-, -, rfl, -⟩ := Stak.unstake_ok hunstake
  have hne := (Token.transfer_ok htransfer).2.1
  obtain ⟨⟨p, hp, hactor⟩, -⟩ := Vote.onUnstake_ok hvote
  -- the owner is the contract itself, to which it cannot transfer
  exact hne ((hauths.2 p hp).symm.trans hactor)

variable {sqrt rule env} in
/-- An `unstake` of the owner that goes through has made the payout. -/
theorem payable_of_ok (hstak : Stak.Kept s.bank.stak)
    (hblacklist : s.bank.stak.blacklist.find owner = none) (hauth : hasAuth env.auths owner)
    (h : unstakeNotified sqrt rule env s owner = .ok s') : Payable env s.bank owner := by
  simp only [unstakeNotified, deliver, bind_eq_ok, check_eq_ok, exists_const] at h
  obtain ⟨⟨stak, t⟩, hunstake, vote, -, haccepted, _, ⟨token, htransfer, -⟩, -⟩ := h
  have hreturns := hunstake
  rw [Stak.unstake_of_auth _ _ hauth] at hreturns
  obtain ⟨-, -, rfl, -⟩ := Stak.unstake_ok hunstake
  obtain ⟨hsender, hne, hacc, hvalid, hpos, ⟨st, hst, hsym⟩, _, hsub, -⟩ :=
    Token.transfer_ok htransfer
  obtain ⟨row, hrow, hle, -, -⟩ := Token.subBalance_ok hsub
  have hsum : s.bank.dueTo owner env.now ≤ Asset.maxAmount := hvalid.1.2
  have hdue : s.bank.stak.due owner env.now ≠ [] := by
    intro hnil
    rw [hnil] at hpos
    exact lt_irrefl 0 hpos
  refine ⟨hpos, ?_, ⟨st, hst, hsym.symm⟩, hsender, hne.symm, hacc, haccepted, ?_⟩
  · have hrow' : s.bank.token.account Vote.unstakeNotifier Stak.vtx.code = some row := hrow
    rw [Token.State.balance, hrow']
    exact hle
  · exact (Stak.unstakeUnlocked_iff hstak Vote.unstakeNotifier hblacklist hsum).mp
      ⟨_, hreturns⟩ hdue

/-- Where the payout can be made, the owner's `unstake` goes through. -/
theorem Payable.ok (h : Payable env s.bank owner) (htoken : Token.Sound s.bank.token)
    (hstak : Stak.Kept s.bank.stak)
    (hlisted : ∀ v ∈ s.vote.voters.rows, ∀ n ∈ v.producers, n ≠ v.owner ∧ s.vote.Registered n)
    (hblacklist : s.bank.stak.blacklist.find owner = none) (hauth : hasAuth env.auths owner) :
    ∃ s', unstakeNotified sqrt rule env s owner = .ok s' := by
  obtain ⟨st, hst, hsym⟩ := h.currency
  have hne : Vote.unstakeNotifier ≠ owner := h.other.symm
  have hvalid : Stak.vtx.isValid := by decide
  have hmemo : "unstaking fund".utf8ByteSize ≤ 256 := by decide
  obtain ⟨token, htransfer⟩ : ∃ token, Token.transfer
      { env.toEnv with auths := [⟨Vote.unstakeNotifier, active⟩] } s.bank.token
      Vote.unstakeNotifier owner ⟨s.bank.dueTo owner env.now, Stak.vtx⟩ "unstaking fund" =
        .ok token :=
    htoken.transfer_of h.permitted hne h.account hst hsym.symm hvalid h.positive hmemo h.covered
  have hquantity := (Token.transfer_ok htransfer).2.2.2.1
  obtain ⟨⟨stak, t⟩, hreturns⟩ := (Stak.unstakeUnlocked_iff hstak Vote.unstakeNotifier hblacklist
    hquantity.1.2).mpr (fun _ => h.totals)
  rw [← Stak.unstake_of_auth _ _ hauth] at hreturns
  obtain ⟨-, -, rfl, -⟩ := Stak.unstake_ok hreturns
  obtain ⟨vote, hvote⟩ : ∃ vote,
      Vote.onUnstake sqrt ⟨env.toCtx, stak, s.bank.token⟩ s.vote owner = .ok vote :=
    Vote.onUnstake_of sqrt hlisted hauth
  -- the contract ignores the notification of its own transfer
  have hnotify : Stak.onTransfer rule Vote.unstakeNotifier env.now stak Vote.unstakeNotifier owner
      ⟨s.bank.dueTo owner env.now, Stak.vtx⟩ "unstaking fund" = .ok stak :=
    if_pos (Or.inl rfl)
  have hdeliver : deliver rule Vote.unstakeNotifier
      { env.toEnv with auths := [⟨Vote.unstakeNotifier, active⟩] } { s.bank with stak := stak }
      Vote.unstakeNotifier owner ⟨s.bank.dueTo owner env.now, Stak.vtx⟩ "unstaking fund" =
        .ok ⟨token, stak⟩ := by
    rw [deliver, htransfer, ok_bind, if_pos (Or.inl rfl), hnotify]
    rfl
  refine ⟨⟨⟨token, stak⟩, vote⟩, ?_⟩
  rw [unstakeNotified, hreturns, ok_bind]
  show (Vote.onUnstake sqrt _ s.vote owner >>= fun vote => _) = _
  rw [hvote, ok_bind, check_of h.accepted, ok_bind]
  show (deliver rule _ _ _ _ _ ⟨s.bank.dueTo owner env.now, Stak.vtx⟩ _ >>= fun bank => _) = _
  rw [hdeliver]
  rfl

/-- The owner's authority does exactly when the payout can be made. -/
theorem byOwner_iff (htoken : Token.Sound s.bank.token) (hstak : Stak.Kept s.bank.stak)
    (hlisted : ∀ v ∈ s.vote.voters.rows, ∀ n ∈ v.producers, n ≠ v.owner ∧ s.vote.Registered n)
    (hblacklist : s.bank.stak.blacklist.find owner = none) (hauth : hasAuth env.auths owner) :
    (∃ s', unstakeNotified sqrt rule env s owner = .ok s') ↔ Payable env s.bank owner := by
  constructor
  · rintro ⟨s', h⟩
    exact payable_of_ok hstak hblacklist hauth h
  · intro h
    exact h.ok sqrt rule env htoken hstak hlisted hblacklist hauth

end Paths

/-- **Two authorities**: take any states the three contracts reach, and an owner that is not
blacklisted.  An `unstake` authorised by the staking contract alone does what one authorised by the
owner does exactly when the payout cannot be made, and then neither goes through. -/
theorem paths_agree_iff (sqrt : D → D) (rule : Stak.SubsidyRule) (tokenSelf voting : Name)
    (tokens : List (Token.Env × Token.Action)) (stakes : List Stak.AnyCall)
    (votes : List (Vote.Env × Vote.Action)) (env : Env) (owner : Name) :
    let bank : Bank := ⟨(run (Token.step tokenSelf) {} tokens).1,
      (run (Stak.stepAny rule Vote.unstakeNotifier) {} stakes).1⟩
    let s : Chain D := ⟨bank, (run (Vote.step sqrt voting) {} votes).1⟩
    bank.stak.blacklist.find owner = none →
    ((∀ auths auths' s', ByContract auths → hasAuth auths' owner →
      (unstakeNotified sqrt rule { env with auths := auths } s owner = .ok s' ↔
        unstakeNotified sqrt rule { env with auths := auths' } s owner = .ok s')) ↔
      ¬ Payable env bank owner) := by
  intro bank s hblacklist
  have htoken : Token.Sound s.bank.token := Token.sound_run tokenSelf tokens
  have hstak : Stak.Kept s.bank.stak := Stak.kept_run rule Vote.unstakeNotifier stakes
  have hlisted : ∀ v ∈ s.vote.voters.rows, ∀ n ∈ v.producers,
      n ≠ v.owner ∧ s.vote.Registered n := (Vote.tally_run sqrt voting votes).listed
  have howner : ∀ auths, hasAuth auths owner →
      ((∃ s', unstakeNotified sqrt rule { env with auths := auths } s owner = .ok s') ↔
        Payable env bank owner) := by
    intro auths hauth
    have hiff := byOwner_iff sqrt rule { env with auths := auths } htoken hstak hlisted hblacklist
      hauth
    refine hiff.trans ⟨fun h => ?_, fun h => ?_⟩
    · exact ⟨h.1, h.2, h.3, h.4, h.5, h.6, h.7, h.8⟩
    · exact ⟨h.1, h.2, h.3, h.4, h.5, h.6, h.7, h.8⟩
  constructor
  · intro hagree hpay
    have hauth : hasAuth [⟨owner, active⟩] owner := ⟨_, List.mem_singleton_self _, rfl⟩
    have hself : ByContract [⟨Vote.unstakeNotifier, active⟩] := by
      refine ⟨List.cons_ne_nil _ _, fun p hp => ?_⟩
      rw [List.mem_singleton.mp hp]
    obtain ⟨s', hs'⟩ := (howner _ hauth).mpr hpay
    exact byContract_aborts hself ((hagree _ _ s' hself hauth).mpr hs')
  · intro hpay auths auths' s' hself hauth
    constructor
    · exact fun h => absurd h (byContract_aborts hself)
    · exact fun h => absurd ((howner auths' hauth).mp ⟨s', h⟩) hpay

/-! ## A stake for a month -/

/-- VTX is created and issued, and the staking contract gets what it owes and what `owner`
stakes. -/
def monthTokens : List (Token.Env × Token.Action) :=
  let env (account : Name) : Token.Env := ⟨⟨[⟨account, active⟩], 1000⟩, fun _ => true⟩
  let owner := Name.ofString "owner"
  let vtx (amount : ℤ) : Asset := ⟨amount, Stak.vtx⟩
  [(env Stak.tokenAcc, .create Stak.tokenAcc (vtx 1000000000000000000)),
    (env Stak.tokenAcc, .issue Stak.tokenAcc (vtx 1000000000000) ""),
    (env Stak.tokenAcc, .transfer Stak.tokenAcc Vote.unstakeNotifier (vtx 100000000000) ""),
    (env Stak.tokenAcc, .transfer Stak.tokenAcc owner (vtx 100000000000) ""),
    (env owner, .transfer owner Vote.unstakeNotifier (vtx 100000000000) "1")]

/-- `owner` stakes for one period. -/
def monthStakes : List Stak.AnyCall :=
  let owner := Name.ofString "owner"
  [.call ⟨⟨[], 1000⟩, .initglobal, true⟩,
    .call ⟨⟨[⟨owner, active⟩], 1000⟩,
      .transfer owner Vote.unstakeNotifier ⟨100000000000, Stak.vtx⟩ "1", true⟩]

/-- Thirty days later. -/
def monthEnv : Env := ⟨⟨⟨[], 2593000⟩, fun _ => true⟩, true⟩

theorem paths_agree_iff_month :
    (∀ auths auths' s', ByContract auths → hasAuth auths' (Name.ofString "owner") →
      (unstakeNotified (id : ℚ → ℚ) .exact { monthEnv with auths := auths }
          ⟨⟨(run (Token.step Stak.tokenAcc) {} monthTokens).1,
            (run (Stak.stepAny .exact Vote.unstakeNotifier) {} monthStakes).1⟩, {}⟩
          (Name.ofString "owner") = .ok s' ↔
        unstakeNotified (id : ℚ → ℚ) .exact { monthEnv with auths := auths' }
          ⟨⟨(run (Token.step Stak.tokenAcc) {} monthTokens).1,
            (run (Stak.stepAny .exact Vote.unstakeNotifier) {} monthStakes).1⟩, {}⟩
          (Name.ofString "owner") = .ok s')) ↔
      ¬ Payable monthEnv ⟨(run (Token.step Stak.tokenAcc) {} monthTokens).1,
        (run (Stak.stepAny .exact Vote.unstakeNotifier) {} monthStakes).1⟩
        (Name.ofString "owner") :=
  paths_agree_iff id .exact Stak.tokenAcc Stak.votingContract monthTokens monthStakes [] monthEnv
    (Name.ofString "owner") (by decide +kernel)

/-- The owner is paid after the month, on its own authority but not on the contract's. -/
theorem paths_disagree_month : ¬ ∀ (sqrt : ℚ → ℚ) (rule : Stak.SubsidyRule)
    (tokenSelf voting : Name) (tokens : List (Token.Env × Token.Action))
    (stakes : List Stak.AnyCall) (votes : List (Vote.Env × Vote.Action)) (env : Env)
    (owner : Name),
    let bank : Bank := ⟨(run (Token.step tokenSelf) {} tokens).1,
      (run (Stak.stepAny rule Vote.unstakeNotifier) {} stakes).1⟩
    let s : Chain ℚ := ⟨bank, (run (Vote.step sqrt voting) {} votes).1⟩
    bank.stak.blacklist.find owner = none →
    ∀ auths auths' s', ByContract auths → hasAuth auths' owner →
      (unstakeNotified sqrt rule { env with auths := auths } s owner = .ok s' ↔
        unstakeNotified sqrt rule { env with auths := auths' } s owner = .ok s') := by
  intro h
  let owner := Name.ofString "owner"
  have hself : ByContract [⟨Vote.unstakeNotifier, active⟩] := by
    refine ⟨List.cons_ne_nil _ _, fun p hp => ?_⟩
    rw [List.mem_singleton.mp hp]
  obtain ⟨s', hs'⟩ := exists_of_isOk (x := unstakeNotified (id : ℚ → ℚ) .exact
    { monthEnv with auths := [⟨owner, active⟩] }
    ⟨⟨(run (Token.step Stak.tokenAcc) {} monthTokens).1,
      (run (Stak.stepAny .exact Vote.unstakeNotifier) {} monthStakes).1⟩, {}⟩ owner)
    (by decide +kernel)
  have hboth := h id .exact Stak.tokenAcc Stak.votingContract monthTokens monthStakes [] monthEnv
    owner (by decide +kernel) _ [⟨owner, active⟩] s' hself ⟨_, List.mem_singleton_self _, rfl⟩
  exact byContract_aborts hself (hboth.mpr hs')

end Authority

end VDexNode.System
