import VDexNode.Vote.Tally

/-!
# VDexNode.Vote.Integrity — the lists of voters against the producers table

`update_producers` looks every name of a list up again and aborts where one is missing, and with it
aborts whatever called it: a new vote, or the `unstake` that notified the contract.  No row is ever
removed from the table, the bulk deletion always aborting, so the names of `Tally.listed` stay.

* `updateLoop_of`, `vote_of` : loops and votes over registered names go through.
* `votes_never_block` : **no state a run reaches blocks a vote or an unstake.**
-/

namespace VDexNode.Vote

open Eosio

section Integrity

variable {D : Type} [Field D] {s : State D}

/-- One turn of `update_producers` over a registered name goes through. -/
theorem updateProducer_of {voterName producer : Name} (delta : D) (hne : producer ≠ voterName)
    (hreg : s.Registered producer) : ∃ s', updateProducer voterName delta s producer = .ok s' := by
  obtain ⟨prod, hprod⟩ := Option.ne_none_iff_exists'.mp hreg
  have hget : s.producers.get producer
      ("producer " ++ producer.toString ++ " is not currently registered") = .ok prod :=
    Table.get_eq_ok.mpr hprod
  refine ⟨{ s with producers :=
    s.producers.put { prod with totalVotes := prod.totalVotes + delta } }, ?_⟩
  simp only [updateProducer, check_of hne, ok_bind, hget]
  rfl

/-- `update_producers` over registered names other than the voter goes through. -/
theorem updateLoop_of {voterName : Name} (delta : D) : ∀ (l : List Name) (s : State D),
    (∀ n ∈ l, n ≠ voterName ∧ s.Registered n) →
      ∃ s', l.foldlM (updateProducer voterName delta) s = .ok s'
  | [], s, _ => ⟨s, rfl⟩
  | producer :: l, s, h => by
    obtain ⟨hne, hreg⟩ := h producer List.mem_cons_self
    obtain ⟨mid, hmid⟩ := updateProducer_of delta hne hreg
    obtain ⟨-, -, -, hshift⟩ := updateProducer_ok hmid
    have hrest : ∀ n ∈ l, n ≠ voterName ∧ mid.Registered n := fun n hn =>
      ⟨(h n (List.mem_cons_of_mem producer hn)).1,
        (hshift.registered n).mpr (h n (List.mem_cons_of_mem producer hn)).2⟩
    obtain ⟨s', hs'⟩ := updateLoop_of delta l mid hrest
    exact ⟨s', foldlM_cons_eq_ok.mpr ⟨mid, hmid, hs'⟩⟩

omit [Field D] in
/-- Storing a voter goes through, whether it has a row or not, and the row holds the list. -/
theorem updateVoters_of (s : State D) (voterName : Name) (producers : List Name)
    (votesPerProd tokens : D) (votingTime : ℕ) :
    ∃ s', updateVoters s voterName producers votesPerProd tokens votingTime = .ok s' ∧
      ∃ v, s'.voters.find voterName = some v ∧ v.producers = producers := by
  have hput : ∀ v : Voter D, v.owner = voterName → v.producers = producers →
      ∃ v', (s.voters.put v).find voterName = some v' ∧ v'.producers = producers := by
    rintro v rfl hlist
    exact ⟨v, Table.find_put_self s.voters v, hlist⟩
  unfold updateVoters
  cases hv : s.voters.find voterName with
  | some voter =>
    have howner : voter.owner = voterName := Table.find_key hv
    exact ⟨_, rfl, hput _ howner rfl⟩
  | none =>
    refine ⟨_, bind_eq_ok.mpr ⟨_, Table.emplace_eq_ok.mpr ⟨?_, rfl⟩, rfl⟩, hput _ rfl rfl⟩
    exact hv

/-- Casting a vote for registered names goes through. -/
theorem cast_of {voterName : Name} {producers : List Name} (votesPerProd tokens : D)
    (votingTime : ℕ) (h : ∀ n ∈ producers, n ≠ voterName ∧ s.Registered n) :
    ∃ s', (updateProducers s voterName producers votesPerProd false >>= fun s =>
      updateVoters s voterName producers votesPerProd tokens votingTime) = .ok s' ∧
      ∃ v, s'.voters.find voterName = some v ∧ v.producers = producers := by
  obtain ⟨mid, hmid⟩ := updateLoop_of votesPerProd producers s h
  obtain ⟨s', hs', hrow⟩ := updateVoters_of mid voterName producers votesPerProd tokens votingTime
  exact ⟨s', bind_eq_ok.mpr ⟨mid, hmid, hs'⟩, hrow⟩

/-- A vote for registered names goes through when the old list can be undone, and the voter's row
holds the new one. -/
theorem vote_of (sqrt : D → D) {voterName : Name} {producers : List Name} (balanceTokens : D)
    (votingTime : ℕ)
    (hlisted : ∀ v ∈ s.voters.rows, ∀ n ∈ v.producers, n ≠ v.owner ∧ s.Registered n)
    (h : ∀ n ∈ producers, n ≠ voterName ∧ s.Registered n) :
    ∃ s', vote sqrt s voterName producers balanceTokens votingTime = .ok s' ∧
      ∃ v, s'.voters.find voterName = some v ∧ v.producers = producers := by
  cases hv : s.voters.find voterName with
  | none =>
    simp only [vote, hv, ok_bind]
    exact cast_of _ _ votingTime h
  | some voter =>
    have hold : ∀ n ∈ voter.producers, n ≠ voterName ∧ s.Registered n := by
      intro n hn
      have hn := hlisted voter (Table.find_mem hv) n hn
      rwa [Table.find_key hv] at hn
    obtain ⟨mid, hmid⟩ := updateLoop_of (-voter.votesPerProd) voter.producers s hold
    obtain ⟨-, -, hshift⟩ := updateLoop_ok hmid
    have hundo : updateProducers s voterName voter.producers voter.votesPerProd true = .ok mid :=
      hmid
    simp only [vote, hv, hundo, ok_bind]
    exact cast_of _ _ votingTime
      (fun n hn => ⟨(h n hn).1, (hshift.registered n).mpr (h n hn).2⟩)

variable [LinearOrder D]

/-- An unstake notification that its owner authorised goes through where the lists can be undone. -/
theorem onUnstake_of (sqrt : D → D) {env : Env} {owner : Name}
    (hlisted : ∀ v ∈ s.voters.rows, ∀ n ∈ v.producers, n ≠ v.owner ∧ s.Registered n)
    (hauth : hasAuth env.auths owner) : ∃ s', onUnstake sqrt env s owner = .ok s' := by
  simp only [onUnstake, requireAuth, check_of hauth, ok_bind, updatevote]
  cases hv : s.voters.find owner with
  | none => exact ⟨s, rfl⟩
  | some voter =>
    by_cases hbalance : 1 < (getTokenBalance env.token owner : D)
    · have hvoter : ∀ n ∈ voter.producers, n ≠ owner ∧ s.Registered n := by
        intro n hn
        have hn := hlisted voter (Table.find_mem hv) n hn
        rwa [Table.find_key hv] at hn
      obtain ⟨s', hs', -⟩ := vote_of sqrt (getTokenBalance env.token owner) 0 hlisted hvoter
      exact ⟨s', by simp only [if_pos hbalance]; exact hs'⟩
    · exact ⟨s, by simp only [if_neg hbalance]⟩

/-- **Votes never block**: in every state a run reaches, the names a voter lists are registered and
other than the voter; so undoing a vote never aborts, a vote that passes the checks of
`voteproducer` and names registered producers goes through and replaces the list of the voter, and
an unstake notification that its owner authorised goes through. -/
theorem votes_never_block (sqrt : D → D) (self : Name) (calls : List (Env × Action)) :
    let s := (run (step sqrt self) {} calls).1
    (∀ v ∈ s.voters.rows, ∀ n ∈ v.producers, s.producers.find n ≠ none ∧ n ≠ v.owner) ∧
    (∀ v ∈ s.voters.rows,
      ∃ s', updateProducers s v.owner v.producers v.votesPerProd true = .ok s') ∧
    (∀ env voterName producers staked, hasAuth env.auths voterName → producers.length ≤ 21 →
      (∀ producer ∈ producers, producer ≠ voterName) →
      Stak.getStakedAmount env.staking voterName = .ok staked →
      (10000 : D) ≤ (staked.amount.tdiv vtxPrecision : ℤ) →
      (∀ producer ∈ producers, s.producers.find producer ≠ none) →
        ∃ s', voteproducer sqrt env s voterName producers = .ok s' ∧
          ∃ v, s'.voters.find voterName = some v ∧ v.producers = producers) ∧
    (∀ env owner, hasAuth env.auths owner → ∃ s', onUnstake sqrt env s owner = .ok s') := by
  intro s
  have hlisted : ∀ v ∈ s.voters.rows, ∀ n ∈ v.producers, n ≠ v.owner ∧ s.Registered n :=
    (tally_run sqrt self calls).listed
  refine ⟨fun v hv n hn => (hlisted v hv n hn).symm, ?_, ?_, ?_⟩
  · intro v hv
    exact updateLoop_of (-v.votesPerProd) v.producers s (hlisted v hv)
  · intro env voterName producers staked hauth hlen hself hstaked htokens hreg
    obtain ⟨s', hs', hrow⟩ := vote_of sqrt ((staked.amount.tdiv vtxPrecision : ℤ) : D) env.now
      hlisted (fun n hn => ⟨hself n hn, hreg n hn⟩)
    refine ⟨s', ?_, hrow⟩
    simp only [voteproducer, requireAuth, check_of hauth, check_of hlen, check_of hself, ok_bind,
      hstaked, check_of htokens]
    exact hs'
  · intro env owner hauth
    exact onUnstake_of sqrt hlisted hauth

end Integrity

end VDexNode.Vote
