import Mathlib.Algebra.Field.Rat
import Mathlib.Algebra.Order.Ring.Rat
import VDexNode.Vote.Spec

/-!
# VDexNode.Vote.Dates — the dates of the voter rows

A vote and the re-weighting at an unstake store their row with the same function; the second passes
the time `0`, which leaves the date alone.  A row is only ever added by a vote, so its date is the
time of the last one.

* `vote_dateOf` : what `vote` does to the dates.
* `dates_track_votes` : **a date is the time of the last vote, and `get_voters_by_time` selects by
  it.**
-/

namespace VDexNode.Vote

open Eosio

/-! ## Votes of a run -/

/-- The time at which a call votes for `account`. -/
def ballotTime (account : Name) (call : Env × Action) : Option ℕ :=
  match call.2 with
  | .voteproducer voterName _ => if voterName = account then some call.1.now else none
  | _ => none

theorem ballotTime_voteproducer (account : Name) (env : Env) (voterName : Name)
    (producers : List Name) :
    ballotTime account (env, .voteproducer voterName producers) =
      if voterName = account then some env.now else none := rfl

/-- The time of the last vote of `account` among the calls `past`. -/
def lastVote (account : Name) (past : List (Env × Action)) : Option ℕ :=
  latest (ballotTime account) past

theorem lastVote_concat (account : Name) (past : List (Env × Action)) (call : Env × Action) :
    lastVote account (past ++ [call]) = (ballotTime account call).or (lastVote account past) :=
  latest_concat ..

section Dates

variable {D : Type} {s s' : State D}

/-- The date of a voter's row. -/
def State.dateOf (s : State D) (account : Name) : Option ℕ :=
  (s.voters.find account).map Voter.date

theorem dateOf_congr (h : s'.voters = s.voters) (account : Name) :
    s'.dateOf account = s.dateOf account := by
  rw [State.dateOf, h, State.dateOf]

theorem updateVoters_dateOf {voterName : Name} {producers : List Name} {votesPerProd tokens : D}
    {votingTime : ℕ}
    (h : updateVoters s voterName producers votesPerProd tokens votingTime = .ok s')
    (account : Name) :
    s'.dateOf account = if account = voterName then
      some (if votingTime ≠ 0 then votingTime else (s.dateOf voterName).getD 0)
      else s.dateOf account := by
  unfold updateVoters at h
  cases hv : s.voters.find voterName with
  | none =>
    simp only [hv, bind_eq_ok, Table.emplace_eq_ok, pure_eq_ok] at h
    obtain ⟨_, ⟨-, rfl⟩, rfl⟩ := h
    simp only [State.dateOf, Table.find_put, hv, Option.map_none, Option.getD_none]
    by_cases ha : account = voterName
    · rw [if_pos ha, if_pos ha, Option.map_some]
    · rw [if_neg ha, if_neg ha]
  | some voter =>
    simp only [hv, pure_eq_ok] at h
    subst h
    have hkey : voter.owner = voterName := Table.find_key hv
    simp only [State.dateOf, Table.find_put, hv, hkey, Option.map_some, Option.getD_some]
    by_cases ha : account = voterName
    · rw [if_pos ha, if_pos ha, Option.map_some]
    · rw [if_neg ha, if_neg ha]

variable [Field D] {sqrt : D → D}

/-- A vote sets the date of its voter to its time, unless that is zero. -/
theorem vote_dateOf {voterName : Name} {producers : List Name} {balanceTokens : D} {votingTime : ℕ}
    (h : vote sqrt s voterName producers balanceTokens votingTime = .ok s') (account : Name) :
    s'.dateOf account = if account = voterName then
      some (if votingTime ≠ 0 then votingTime else (s.dateOf voterName).getD 0)
      else s.dateOf account := by
  simp only [vote, bind_eq_ok] at h
  obtain ⟨s₁, hundo, s₂, hcast, h⟩ := h
  have hvoters₁ : s₁.voters = s.voters := by
    cases hv : s.voters.find voterName with
    | none =>
      simp only [hv] at hundo
      cases hundo
      rfl
    | some voter =>
      simp only [hv] at hundo
      exact (updateLoop_ok hundo).2.1
  have hvoters : s₂.voters = s.voters := (updateLoop_ok hcast).2.1.trans hvoters₁
  rw [updateVoters_dateOf h, dateOf_congr hvoters, dateOf_congr hvoters]

variable [LinearOrder D] {self : Name} {past : List (Env × Action)}

/-- **Step lemma**: dates stay the times of the last votes. -/
theorem dates_step (hdates : ∀ account, s.dateOf account = lastVote account past)
    {call : Env × Action} {out : List Empty} (hpos : 0 < call.1.now)
    (h : step sqrt self s call = .ok (s', out)) (account : Name) :
    s'.dateOf account = lastVote account (past ++ [call]) := by
  simp only [step, bind_eq_ok, pure_eq_ok] at h
  obtain ⟨s₁, h, heq⟩ := h
  cases heq
  obtain ⟨env, action⟩ := call
  rw [lastVote_concat, ← hdates]
  cases action with
  | regproducer producer producerName url key nodeId jobIds =>
    exact dateOf_congr (regproducer_voters h) account
  | unregprod producer => exact dateOf_congr (setActive_voters h) account
  | activateprod producer => exact dateOf_congr (setActive_voters h) account
  | unregprodall => exact absurd h unregprodall_ne_ok
  | deluserinfo => exact absurd h deluserinfo_ne_ok
  | voteproducer voterName producers =>
    obtain ⟨-, -, staked, -, -, hvote⟩ := voteproducer_ok h
    rw [vote_dateOf hvote, ballotTime_voteproducer, if_pos (Nat.ne_of_gt hpos)]
    by_cases ha : account = voterName
    · rw [if_pos ha, if_pos ha.symm]
      rfl
    · rw [if_neg ha, if_neg (fun he => ha he.symm)]
      rfl
  | onUnstake owner =>
    -- the re-weighting finds the row it stores
    obtain ⟨-, rfl | ⟨voter, hvoter, -, hvote⟩⟩ := onUnstake_ok h
    · rfl
    · have hdate : s.dateOf owner = some voter.date := by
        rw [State.dateOf, hvoter, Option.map_some]
      rw [vote_dateOf hvote]
      by_cases ha : account = owner
      · rw [if_pos ha, ha, hdate]
        rfl
      · rw [if_neg ha]
        rfl

/-- **Run lemma**: after every run at positive times, each date is the time of the last vote. -/
theorem dates_run (sqrt : D → D) (self : Name) (calls : List (Env × Action))
    (hpos : ∀ call ∈ calls, 0 < call.1.now) (account : Name) :
    (run (step sqrt self) ({} : State D) calls).1.dateOf account =
      lastVote account (returned (step sqrt self) ({} : State D) calls) :=
  run_history_of
    (fun (s : State D) past => ∀ account, s.dateOf account = lastVote account past)
    (fun _ (call : Env × Action) => 0 < call.1.now) (fun _ => rfl)
    (fun _ _ _ _ _ hdates hpos h => dates_step hdates hpos h) calls
    (Along.of_forall (fun call hcall _ => hpos call hcall)) account

/-- **Dates track votes**: after every run at positive block times, the date of a voter's row is the
time of the voter's last vote that went through, and `get_voters_by_time` lists exactly the accounts
whose last vote lies in the interval, each once. -/
theorem dates_track_votes (sqrt : D → D) (self : Name) (calls : List (Env × Action))
    (hpos : ∀ call ∈ calls, 0 < call.1.now) :
    let s := (run (step sqrt self) ({} : State D) calls).1
    let past := returned (step sqrt self) ({} : State D) calls
    (∀ v ∈ s.voters.rows, lastVote v.owner past = some v.date) ∧
    ∀ first last user, (getVotersByTime s first last user).Nodup ∧
      ∀ account, account ∈ getVotersByTime s first last user ↔
        ∃ t, lastVote account past = some t ∧ first ≤ t ∧ t ≤ last := by
  intro s past
  have hrun : ∀ account, s.dateOf account = lastVote account past :=
    dates_run sqrt self calls hpos
  have hrows : ∀ v ∈ s.voters.rows, lastVote v.owner past = some v.date := by
    intro v hv
    rw [← hrun, State.dateOf, Table.find_self hv, Option.map_some]
  refine ⟨hrows, fun first last user => ⟨?_, fun account => ?_⟩⟩
  · exact s.voters.nodup_keys.sublist (List.filter_sublist.map Voter.owner)
  · rw [getVotersByTime, List.mem_map]
    constructor
    · rintro ⟨v, hv, rfl⟩
      obtain ⟨hv, hdate⟩ := List.mem_filter.mp hv
      exact ⟨v.date, hrows v hv, of_decide_eq_true hdate⟩
    · rintro ⟨t, hlast, hfirst, hle⟩
      rw [← hrun, State.dateOf] at hlast
      obtain ⟨v, hv, rfl⟩ := Option.map_eq_some_iff.mp hlast
      refine ⟨v, List.mem_filter.mpr ⟨Table.find_mem hv, decide_eq_true ⟨hfirst, hle⟩⟩, ?_⟩
      exact Table.find_key hv

end Dates

/-- A vote with a stake of 10000 VTX and, a day later, an unstake with 20000 VTX on the account. -/
def votedThenUnstaked : List (Env × Action) :=
  let voter := Name.ofString "voter"
  let node := Name.ofString "node"
  let row : Stak.Stake := ⟨voter, 0, ⟨1000000000000, Stak.vtx⟩, ⟨0, Stak.vtx⟩, 5000⟩
  let env (account : Name) (now : ℕ) : Env :=
    { auths := [⟨account, active⟩], now := now,
      staking := { accountStake := Table.empty.put row },
      token := { accounts := Table.empty.put ⟨voter, ⟨2000000000000, Stak.vtx⟩⟩ } }
  [(env node 1000, .regproducer node "" "" "" "" [1]), (env voter 1001, .voteproducer voter [node]),
    (env voter 87401, .onUnstake voter)]

theorem dates_track_votes_unstake :
    let s := (run (step id (Name.ofString "volentixvote")) ({} : State ℚ) votedThenUnstaked).1
    let past := returned (step id (Name.ofString "volentixvote")) ({} : State ℚ) votedThenUnstaked
    (∀ v ∈ s.voters.rows, lastVote v.owner past = some v.date) ∧
    ∀ first last user, (getVotersByTime s first last user).Nodup ∧
      ∀ account, account ∈ getVotersByTime s first last user ↔
        ∃ t, lastVote account past = some t ∧ first ≤ t ∧ t ≤ last :=
  dates_track_votes id (Name.ofString "volentixvote") votedThenUnstaked (by decide)

/-- The date is that of the vote, not of the unstake. -/
example : (run (step id (Name.ofString "volentixvote")) ({} : State ℚ)
    votedThenUnstaked).1.dateOf (Name.ofString "voter") = some 1001 := by
  decide +kernel

end VDexNode.Vote
