import Mathlib.Data.Rat.Sqrt
import VDexNode.System.Solvency
import VDexNode.Vote.Spec

/-!
# VDexNode.System.Backing — vote weights and stakes

`voteproducer` records the whole VTX the voter has staked.  Two things move the stake and the record
apart: an `unstake` on the staking contract that is read, of which the voting contract is not told,
and an unstake notification, which records the liquid balance instead of a stake.

`Backed`: no voter with a list has more tokens on record than it has staked.  `Guarded`: an
`unstake` leaves enough stake locked for the record, and a notification finds a liquid balance no
larger than the stake.  A run whose calls are guarded keeps every record backed (`weight_backed`).
-/

namespace VDexNode.System

open Eosio

section Backing

variable {D : Type} [Field D] [LinearOrder D]

/-- The whole VTX in an amount. -/
def wholeVtx (amount : ℤ) : D := (amount.tdiv Vote.vtxPrecision : ℤ)

/-- Every voter with a list has staked what its row records. -/
def Backed (s : Chain D) : Prop :=
  ∀ v ∈ s.vote.voters.rows, v.producers ≠ [] →
    v.tokens ≤ wholeVtx (s.bank.stak.stakedOf v.owner)

instance (s : Chain D) : Decidable (Backed s) :=
  inferInstanceAs (Decidable (∀ v ∈ _, _ → _))

/-- What `owner` has staked that is still locked. -/
def lockedOf (s : Stak.State) (owner : Name) (now : ℕ) : ℤ :=
  (s.accountStake.filter (fun r => decide (r.account = owner) && !r.unlocked now)).sum
    (fun r => r.amount.amount)

/-- An `unstake` that is let in leaves the owner's record covered by the stakes still locked; an
unstake notification that is let in finds a liquid balance covered by the stakes. -/
def Guarded (s : Chain D) (call : Env × ChainAction) : Prop :=
  match call.2 with
  | .bank (.unstake owner) =>
    hasAuth call.1.auths owner ∨ hasAuth call.1.auths Vote.stakingContract →
      s.bank.stak.blacklist.find owner = none →
      ∀ v ∈ s.vote.voters.find owner, v.producers ≠ [] →
        v.tokens ≤ wholeVtx (lockedOf s.bank.stak owner call.1.now)
  | .vote (.onUnstake owner) =>
    hasAuth call.1.auths owner →
      ∀ v ∈ s.vote.voters.find owner, v.producers ≠ [] →
        1 < (Vote.getTokenBalance s.bank.token owner : D) →
        (Vote.getTokenBalance s.bank.token owner : D) ≤ wholeVtx (s.bank.stak.stakedOf owner)
  | _ => True

instance (s : Chain D) (call : Env × ChainAction) : Decidable (Guarded s call) := by
  unfold Guarded
  split <;> infer_instance

/-! ## Stakes -/

variable {rule : Stak.SubsidyRule} {s s' : Bank}

theorem stakedOf_congr {st st' : Stak.State} (h : st'.accountStake = st.accountStake) (a : Name) :
    st'.stakedOf a = st.stakedOf a := by
  rw [Stak.State.stakedOf, Stak.State.stakedOf, h]

/-- A stake lowers nobody's total. -/
theorem stakedOf_stake {now : ℕ} {st st' : Stak.State} {account : Name} {quantity : Asset}
    {periodsNum : ℕ} (h : Stak.stake rule now st account quantity periodsNum = .ok st') (a : Name) :
    st.stakedOf a ≤ st'.stakedOf a := by
  obtain ⟨row, g, -, hlo, -, -, -, hamt, -, -, hnew, -, -, rfl⟩ := Stak.stake_ok h
  simp only [Stak.State.stakedOf, Table.sum_filter, Table.sum_put_new hnew]
  split_ifs
  · rw [hamt]
    omega
  · omega

/-- A transfer lowers nobody's stake. -/
theorem stakedOf_deliver {self : Name} {env : Token.Env} {sender recipient : Name}
    {quantity : Asset} {memo : String}
    (h : deliver rule self env s sender recipient quantity memo = .ok s') (a : Name) :
    s.stak.stakedOf a ≤ s'.stak.stakedOf a := by
  obtain ⟨-, ⟨-, hstak, -⟩ | ⟨-, -, -, hstak, -⟩ | ⟨-, -, -, ⟨p, hstake⟩, -⟩ | ⟨-, -, hstak, -⟩⟩ :=
    deliver_ok h
  · rw [hstak]
  · rw [hstak]
  · exact stakedOf_stake hstake a
  · rw [hstak]

/-- An `unstake` takes the unlocked stakes of its owner and of nobody else. -/
theorem stakedOf_unstake {self : Name} {env : Env} {owner : Name}
    (h : unstake rule self env s owner = .ok s') :
    (hasAuth env.auths owner ∨ hasAuth env.auths self) ∧ s.stak.blacklist.find owner = none ∧
      lockedOf s.stak owner env.now ≤ s'.stak.stakedOf owner ∧
      ∀ a, a ≠ owner → s.stak.stakedOf a ≤ s'.stak.stakedOf a := by
  simp only [unstake, bind_eq_ok, check_eq_ok, exists_const] at h
  obtain ⟨⟨stak, t⟩, hun, -, h⟩ := h
  obtain ⟨hauth, hbl, rfl, rfl⟩ := Stak.unstake_ok hun
  refine ⟨hauth, hbl, ?_, fun a ha => ?_⟩
  · refine le_of_eq_of_le ?_ (stakedOf_deliver h owner)
    simp only [lockedOf, Stak.State.stakedOf, Table.sum, Table.filter, List.filter_filter]
    congr 2
    refine List.filter_congr (fun r _ => ?_)
    by_cases hr : r.account = owner <;> simp [hr, Stak.Stake.due]
  · refine le_of_eq_of_le ?_ (stakedOf_deliver h a)
    simp only [Stak.State.stakedOf, Table.sum, Table.filter, List.filter_filter]
    congr 2
    refine List.filter_congr (fun r _ => ?_)
    by_cases hr : r.account = a
    · have hr' : r.account ≠ owner := fun he => ha (hr.symm.trans he)
      simp [hr, ha, Stak.Stake.due]
    · simp [hr]

/-- **Bank lemma**: a transaction lowers a stake only by an `unstake` of its owner. -/
theorem stakedOf_bankStep {self : Name} {call : Env × Action} {out : List Receipt}
    (h : bankStep rule self s call = .ok (s', out)) (a : Name)
    (ha : ∀ owner, call.2 = .unstake owner → a ≠ owner) :
    s.stak.stakedOf a ≤ s'.stak.stakedOf a := by
  obtain ⟨env, action⟩ := call
  cases action with
  | transfer sender recipient quantity memo =>
    simp only [bankStep, bind_eq_ok, pure_eq_ok] at h
    obtain ⟨s₁, hd, _, -, heq⟩ := h
    cases heq
    exact stakedOf_deliver hd a
  | unstake owner =>
    simp only [bankStep, bind_eq_ok, pure_eq_ok] at h
    obtain ⟨s₁, hu, heq⟩ := h
    cases heq
    exact (stakedOf_unstake hu).2.2.2 a (ha owner rfl)
  | initglobal =>
    cases h
    exact le_rfl
  | addblacklist account =>
    simp only [bankStep, bind_eq_ok, pure_eq_ok] at h
    obtain ⟨stak, hbl, heq⟩ := h
    cases heq
    exact (stakedOf_congr (Stak.addblacklist_ok hbl).1 a).ge
  | rmblacklist account =>
    simp only [bankStep, bind_eq_ok, pure_eq_ok] at h
    obtain ⟨stak, hbl, heq⟩ := h
    cases heq
    exact (stakedOf_congr (Stak.rmblacklist_ok hbl).1 a).ge

/-! ## Votes -/

variable {sqrt : D → D} {voting : Name} {c c' : Chain D}

/-- A vote records `tokens`, and leaves the other rows alone. -/
theorem Backed.of_vote {vote' : Vote.State D} (h : Backed c) {voterName : Name}
    {producers : List Name} {tokens : D} {votingTime : ℕ}
    (hv : Vote.vote sqrt c.vote voterName producers tokens votingTime = .ok vote')
    (htok : producers ≠ [] → tokens ≤ wholeVtx (c.bank.stak.stakedOf voterName)) :
    Backed { c with vote := vote' } := by
  obtain ⟨row, howner, hlist, -, hrow, hvoters, -⟩ := Vote.vote_ok hv
  intro v hv hne
  simp only [hvoters] at hv
  rcases Table.mem_put.mp hv with rfl | ⟨hv, -⟩
  · rw [hrow, howner]
    rw [hlist] at hne
    exact htok hne
  · exact h v hv hne

variable [IsStrictOrderedRing D]

theorem wholeVtx_mono {a b : ℤ} (h : a ≤ b) : (wholeVtx a : D) ≤ wholeVtx b := by
  unfold wholeVtx
  exact_mod_cast Int.tdiv_le_tdiv (by decide) h

/-- **Step lemma**: a guarded call keeps every record backed. -/
theorem backed_step (h : Backed c) {call : Env × ChainAction} {out : List Empty}
    (hg : Guarded c call) (hs : chainStep sqrt rule voting c call = .ok (c', out)) :
    Backed c' := by
  obtain ⟨env, action⟩ := call
  cases action with
  | bank action =>
    simp only [chainStep, bind_eq_ok, pure_eq_ok] at hs
    obtain ⟨⟨bank, receipts⟩, hb, vote, hn, heq⟩ := hs
    cases heq
    -- no notification arrives: the two account names differ
    have hvote : vote = c.vote := by
      cases action with
      | unstake owner =>
        simp only at hn
        rw [if_neg (by decide)] at hn
        cases hn
        rfl
      | _ =>
        cases hn
        rfl
    subst hvote
    intro v hv hne
    by_cases howner : action = .unstake v.owner
    · subst howner
      simp only [bankStep, bind_eq_ok, pure_eq_ok] at hb
      obtain ⟨s₁, hu, heq⟩ := hb
      cases heq
      obtain ⟨hauth, hbl, hlocked, -⟩ := stakedOf_unstake hu
      exact (hg hauth hbl v (Table.find_self hv) hne).trans (wholeVtx_mono hlocked)
    · have hmono := stakedOf_bankStep hb v.owner (fun owner ho he => howner (he ▸ ho))
      exact (h v hv hne).trans (wholeVtx_mono hmono)
  | vote action =>
    simp only [chainStep, bind_eq_ok, pure_eq_ok] at hs
    obtain ⟨vote, hv, heq⟩ := hs
    cases heq
    have hsame : vote.voters = c.vote.voters → Backed { c with vote := vote } := fun heq v hv => by
      simp only [heq] at hv
      exact h v hv
    cases action with
    | regproducer producer producerName url key nodeId jobIds =>
      exact hsame (Vote.regproducer_voters hv)
    | unregprod producer => exact hsame (Vote.setActive_voters hv)
    | activateprod producer => exact hsame (Vote.setActive_voters hv)
    | unregprodall => exact absurd hv Vote.unregprodall_ne_ok
    | deluserinfo => exact absurd hv Vote.deluserinfo_ne_ok
    | voteproducer voterName producers =>
      obtain ⟨-, -, staked, hstaked, -, hv⟩ := Vote.voteproducer_ok hv
      refine h.of_vote hv (fun _ => ?_)
      rw [Stak.getStakedAmount_ok hstaked]
      exact le_rfl
    | onUnstake owner =>
      obtain ⟨hauth, rfl | ⟨voter, hvoter, hlt, hv⟩⟩ := Vote.onUnstake_ok hv
      · exact h
      · exact h.of_vote hv (fun hne => hg hauth voter hvoter hne hlt)

/-- **Backing**: a run whose calls are guarded keeps every record backed by a stake. -/
theorem weight_backed (sqrt : D → D) (rule : Stak.SubsidyRule) (voting : Name) (bank₀ : Bank)
    (calls : List (Env × ChainAction))
    (hguard : Along (chainStep sqrt rule voting) Guarded ⟨bank₀, {}⟩ calls) :
    Backed (run (chainStep sqrt rule voting) ⟨bank₀, {}⟩ calls).1 :=
  run_invariant_of (fun c _ => Backed c) Guarded (fun v hv => by simp at hv)
    (fun _ _ _ _ _ h hg hs => backed_step h hg hs) calls hguard

end Backing

/-- A voter with 10000 VTX, and 1000 VTX at the token account. -/
def voterFunds : Bank where
  token :=
    { accounts := (Table.empty.put ⟨Name.ofString "voter", ⟨1000000000000, Stak.vtx⟩⟩).put
        ⟨Stak.tokenAcc, ⟨100000000000, Stak.vtx⟩⟩
      stats := Table.empty.put
        ⟨⟨1100000000000, Stak.vtx⟩, ⟨1000000000000000, Stak.vtx⟩, Name.ofString "issuer"⟩ }
  stak := {}

/-- A call signed by the given account. -/
def signedBy (signer : Name) : Env := ⟨⟨⟨[⟨signer, active⟩], 1000⟩, fun _ => true⟩, true⟩

/-- The voter stakes everything for no period at all and votes. -/
def stakeAndVote : List (Env × ChainAction) :=
  let voter := Name.ofString "voter"
  let prod := Name.ofString "prod"
  [(signedBy voter, .bank .initglobal),
    (signedBy Stak.tokenAcc,
      .bank (.transfer Stak.tokenAcc Vote.stakingContract ⟨100000000000, Stak.vtx⟩ "")),
    (signedBy voter, .bank (.transfer voter Vote.stakingContract ⟨1000000000000, Stak.vtx⟩ "0")),
    (signedBy prod, .vote (.regproducer prod "" "" "" "" [1])),
    (signedBy voter, .vote (.voteproducer voter [prod]))]

theorem weight_backed_stakeAndVote :
    Backed (run (chainStep Rat.sqrt .exact (Name.ofString "volentixvote")) ⟨voterFunds, {}⟩
      (stakeAndVote ++ [(signedBy (Name.ofString "voter"),
        .vote (.onUnstake (Name.ofString "voter")))])).1 :=
  weight_backed _ _ _ _ _ (by decide +kernel)

/-- Unstaking leaves the vote as it is. -/
theorem unstaked_vote_counts : ¬ ∀ (rule : Stak.SubsidyRule) (voting : Name) (bank₀ : Bank)
    (calls : List (Env × ChainAction)),
    Backed (run (chainStep Rat.sqrt rule voting) ⟨bank₀, {}⟩ calls).1 :=
  fun h => absurd (h .exact (Name.ofString "volentixvote") voterFunds (stakeAndVote ++
    [(signedBy (Name.ofString "voter"), .bank (.unstake (Name.ofString "voter")))]))
    (by decide +kernel)

end VDexNode.System
