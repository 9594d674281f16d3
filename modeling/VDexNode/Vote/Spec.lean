import VDexNode.Vote.Model

/-!
# VDexNode.Vote.Spec — what the functions of `volentixvote` return

`Shifted s s' f`: from `s` to `s'` the total of every producer `n` moved by `f n`.  One loop of
`update_producers` moves it once for each time `n` is listed (`updateLoop_ok`), and a vote from what
the voter's old row cast to what the new one casts (`vote_ok`).
-/

namespace VDexNode.Vote

open Eosio

section Spec

variable {D : Type} {s s' : State D}

theorem updateVoters_ok {voterName : Name} {producers : List Name} {votesPerProd tokens : D}
    {votingTime : ℕ}
    (h : updateVoters s voterName producers votesPerProd tokens votingTime = .ok s') :
    s'.producers = s.producers ∧ ∃ row : Voter D, row.owner = voterName ∧
      row.producers = producers ∧ row.votesPerProd = votesPerProd ∧ row.tokens = tokens ∧
      s'.voters = s.voters.put row := by
  unfold updateVoters at h
  cases hv : s.voters.find voterName with
  | none =>
    simp only [hv, bind_eq_ok, Table.emplace_eq_ok, pure_eq_ok] at h
    obtain ⟨_, ⟨-, rfl⟩, rfl⟩ := h
    exact ⟨rfl, _, rfl, rfl, rfl, rfl, rfl⟩
  | some voter =>
    simp only [hv, pure_eq_ok] at h
    subst h
    have hkey : voter.owner = voterName := Table.find_key hv
    exact ⟨rfl, { voter with producers, votesPerProd, tokens, date := _ }, hkey, rfl, rfl, rfl, rfl⟩

variable [Field D] {sqrt : D → D}

/-- What `v` adds to the total of the producer `n`. -/
def Voter.cast (v : Voter D) (n : Name) : D := (v.producers.count n : D) * v.votesPerProd

/-- `n` has a row in `producers`. -/
def State.Registered (s : State D) (n : Name) : Prop := s.producers.find n ≠ none

/-- Every producer's total changed by `f`. -/
def Shifted (s s' : State D) (f : Name → D) : Prop :=
  ∀ n, s'.producers.find n =
    (s.producers.find n).map (fun p => { p with totalVotes := p.totalVotes + f n })

theorem Shifted.refl (s : State D) : Shifted s s (fun _ => 0) := fun n => by
  cases s.producers.find n <;> simp

theorem Shifted.trans {s₁ s₂ s₃ : State D} {f g : Name → D} (hf : Shifted s₁ s₂ f)
    (hg : Shifted s₂ s₃ g) : Shifted s₁ s₃ (fun n => f n + g n) := fun n => by
  rw [hg n, hf n]
  cases s₁.producers.find n <;> simp [add_assoc]

theorem Shifted.registered {f : Name → D} (h : Shifted s s' f) (n : Name) :
    s'.Registered n ↔ s.Registered n := by
  rw [State.Registered, State.Registered, h n]
  cases s.producers.find n <;> simp

theorem updateProducer_ok {voterName producer : Name} {delta : D}
    (h : updateProducer voterName delta s producer = .ok s') :
    producer ≠ voterName ∧ s.Registered producer ∧ s'.voters = s.voters ∧
      Shifted s s' (fun n => if n = producer then delta else 0) := by
  simp only [updateProducer, bind_eq_ok, check_eq_ok, exists_const, Table.get_eq_ok, pure_eq_ok]
    at h
  obtain ⟨hne, prod, hprod, rfl⟩ := h
  refine ⟨hne, by simp [State.Registered, hprod], rfl, fun n => ?_⟩
  have hkey := Table.find_key hprod
  simp only [Table.find_put, hkey]
  by_cases hn : n = producer
  · simp only [hn, if_true, hprod, Option.map_some, hkey]
  · rw [if_neg hn, if_neg hn]
    cases s.producers.find n <;> simp

/-- A loop of `update_producers`: each name of the list is registered and other than the voter, and
its total moves once for each time it is listed. -/
theorem updateLoop_ok {voterName : Name} {delta : D} : ∀ {l : List Name} {s s' : State D},
    l.foldlM (updateProducer voterName delta) s = .ok s' →
      (∀ n ∈ l, n ≠ voterName ∧ s.Registered n) ∧ s'.voters = s.voters ∧
        Shifted s s' (fun n => (l.count n : D) * delta)
  | [], s, s', h => by
    cases h
    exact ⟨by simp, rfl, by simpa using Shifted.refl s⟩
  | producer :: l, s, s', h => by
    obtain ⟨mid, hmid, h⟩ := foldlM_cons_eq_ok.mp h
    obtain ⟨hne, hreg, hvoters, hshift⟩ := updateProducer_ok hmid
    obtain ⟨hall, hvoters', hshift'⟩ := updateLoop_ok h
    refine ⟨?_, hvoters'.trans hvoters, ?_⟩
    · intro n hn
      rcases List.mem_cons.mp hn with rfl | hn
      · exact ⟨hne, hreg⟩
      · exact ⟨(hall n hn).1, (hshift.registered n).mp (hall n hn).2⟩
    · have hboth := hshift.trans hshift'
      have hcount : (fun n => (if n = producer then delta else 0) + (l.count n : D) * delta) =
          fun n => ((producer :: l).count n : D) * delta := by
        funext n
        rw [List.count_cons]
        by_cases hn : n = producer
        · subst hn
          simp [add_mul, add_comm]
        · have hn' : ¬ producer = n := fun he => hn he.symm
          simp [hn, hn']
      rw [hcount] at hboth
      exact hboth

/-- What the row of `voterName` has cast so far for `n`. -/
def State.castBy (s : State D) (voterName n : Name) : D :=
  ((s.voters.find voterName).map (fun v => v.cast n)).getD 0

/-- A vote that goes through: one new row for the voter, and the totals moved from what the old row
cast to what the new one does. -/
theorem vote_ok {voterName : Name} {producers : List Name} {balanceTokens : D} {votingTime : ℕ}
    (h : vote sqrt s voterName producers balanceTokens votingTime = .ok s') :
    ∃ row : Voter D, row.owner = voterName ∧ row.producers = producers ∧
      row.votesPerProd = sqrt balanceTokens / (producers.length : D) ∧
      row.tokens = balanceTokens ∧ s'.voters = s.voters.put row ∧
      (∀ n ∈ producers, n ≠ voterName ∧ s.Registered n) ∧
      Shifted s s' (fun n => row.cast n - s.castBy voterName n) := by
  simp only [vote, bind_eq_ok] at h
  obtain ⟨s₁, hundo, s₂, hcast, h⟩ := h
  have hundo' : s₁.voters = s.voters ∧ Shifted s s₁ (fun n => -s.castBy voterName n) := by
    cases hv : s.voters.find voterName with
    | none =>
      simp only [hv] at hundo
      cases hundo
      exact ⟨rfl, by simpa [State.castBy, hv] using Shifted.refl s⟩
    | some voter =>
      simp only [hv] at hundo
      obtain ⟨-, hvoters, hshift⟩ := updateLoop_ok hundo
      refine ⟨hvoters, ?_⟩
      simpa [State.castBy, hv, Voter.cast] using hshift
  obtain ⟨hvoters₁, hshift₁⟩ := hundo'
  obtain ⟨hall, hvoters₂, hshift₂⟩ := updateLoop_ok hcast
  obtain ⟨hprods, row, howner, hlist, hvpp, htok, hvoters⟩ := updateVoters_ok h
  refine ⟨row, howner, hlist, hvpp, htok, by rw [hvoters, hvoters₂, hvoters₁], ?_, ?_⟩
  · exact fun n hn => ⟨(hall n hn).1, (hshift₁.registered n).mp (hall n hn).2⟩
  · intro n
    rw [hprods, (hshift₁.trans hshift₂) n]
    simp only [Voter.cast, hlist, hvpp, Bool.false_eq_true, if_false]
    rw [neg_add_eq_sub]

/-! ## Calls -/

theorem regproducer_voters {env : Env} {producer : Name} {producerName url key nodeId : String}
    {jobIds : List ℕ}
    (h : regproducer env s producer producerName url key nodeId jobIds = .ok s') :
    s'.voters = s.voters := by
  simp only [regproducer, bind_eq_ok] at h
  obtain ⟨_, -, _, -, h⟩ := h
  cases hprod : s.producers.find producer with
  | some prod =>
    simp only [hprod, pure_eq_ok] at h
    rw [← h]
  | none =>
    simp only [hprod, bind_eq_ok, pure_eq_ok] at h
    obtain ⟨_, -, rfl⟩ := h
    rfl

omit [Field D] in
theorem setActive_voters {env : Env} {producer : Name} {isActive : Bool}
    (h : setActive env s producer isActive = .ok s') : s'.voters = s.voters := by
  simp only [setActive, bind_eq_ok, pure_eq_ok] at h
  obtain ⟨_, -, _, -, rfl⟩ := h
  rfl

omit [Field D] in
/-- Neither bulk deletion goes through: each ends by erasing `end()`. -/
theorem unregprodall_ne_ok {self : Name} {env : Env} : unregprodall self env s ≠ .ok s' := by
  intro h
  simp only [unregprodall, bind_eq_ok, Table.eraseAt] at h
  obtain ⟨_, -, _, -, _, h, -⟩ := h
  cases h

omit [Field D] in
theorem deluserinfo_ne_ok {self : Name} {env : Env} : deluserinfo self env s ≠ .ok s' := by
  intro h
  simp only [deluserinfo, bind_eq_ok, Table.eraseAt] at h
  obtain ⟨_, -, _, -, _, h, -⟩ := h
  cases h

variable [LinearOrder D]

theorem voteproducer_ok {env : Env} {voterName : Name} {producers : List Name}
    (h : voteproducer sqrt env s voterName producers = .ok s') :
    hasAuth env.auths voterName ∧ producers.length ≤ 21 ∧
      ∃ staked, Stak.getStakedAmount env.staking voterName = .ok staked ∧
        10000 ≤ ((staked.amount.tdiv vtxPrecision : ℤ) : D) ∧
        vote sqrt s voterName producers ((staked.amount.tdiv vtxPrecision : ℤ) : D) env.now =
          .ok s' := by
  simp only [voteproducer, requireAuth, bind_eq_ok, check_eq_ok, exists_const] at h
  obtain ⟨hauth, hlen, -, staked, hstaked, htok, h⟩ := h
  exact ⟨hauth, hlen, staked, hstaked, htok, h⟩

/-- An unstake notification either leaves the state alone or casts the voter's vote again, weighed
by the liquid balance. -/
theorem onUnstake_ok {env : Env} {owner : Name} (h : onUnstake sqrt env s owner = .ok s') :
    hasAuth env.auths owner ∧
      (s' = s ∨ ∃ voter, s.voters.find owner = some voter ∧
        1 < (getTokenBalance env.token owner : D) ∧
        vote sqrt s owner voter.producers (getTokenBalance env.token owner) 0 = .ok s') := by
  simp only [onUnstake, requireAuth, bind_eq_ok, check_eq_ok, exists_const] at h
  obtain ⟨hauth, h⟩ := h
  refine ⟨hauth, ?_⟩
  unfold updatevote at h
  cases hv : s.voters.find owner with
  | none =>
    simp only [hv] at h
    cases h
    exact Or.inl rfl
  | some voter =>
    simp only [hv] at h
    split_ifs at h with hlt
    · exact Or.inr ⟨voter, rfl, hlt, h⟩
    · cases h
      exact Or.inl rfl

end Spec

/-! ## The index -/

section Index

variable {D : Type} [Field D] [LinearOrder D] (s : State D)

/-- The producers in the order of the index are the producers. -/
theorem protoTotalVote_perm : s.protoTotalVote.Perm s.producers.rows :=
  List.perm_insertionSort _ _

theorem mem_protoTotalVote {p : Producer D} : p ∈ s.protoTotalVote ↔ p ∈ s.producers.rows :=
  (protoTotalVote_perm s).mem_iff

/-- No account is listed twice. -/
theorem nodup_owners : (s.protoTotalVote.map Producer.owner).Nodup :=
  ((protoTotalVote_perm s).map Producer.owner).nodup_iff.mpr s.producers.nodup_keys

/-- The index is in order. -/
theorem pairwise_protoTotalVote : s.protoTotalVote.Pairwise
    (fun a b => toLex (a.byVotes, a.owner) ≤ toLex (b.byVotes, b.owner)) := by
  have : Std.Total (fun a b : Producer D =>
      toLex (a.byVotes, a.owner) ≤ toLex (b.byVotes, b.owner)) := ⟨fun _ _ => le_total _ _⟩
  have : IsTrans (Producer D) (fun a b =>
      toLex (a.byVotes, a.owner) ≤ toLex (b.byVotes, b.owner)) := ⟨fun _ _ _ => le_trans⟩
  exact List.pairwise_insertionSort _ _

variable {s}

/-- **The rank of a listed producer is its position**, since no other row has its account. -/
theorem getRank_of_getElem? {i : ℕ} {p : Producer D} (h : s.protoTotalVote[i]? = some p) :
    getRank s p.owner = i := by
  obtain ⟨hlt, hp⟩ := List.getElem?_eq_some_iff.mp h
  have hidx : s.protoTotalVote.findIdx (fun o => decide (o.owner = p.owner)) = i := by
    rw [List.findIdx_eq hlt]
    refine ⟨decide_eq_true (congrArg Producer.owner hp), fun j hj => decide_eq_false ?_⟩
    intro howner
    have hlt' : j < s.protoTotalVote.length := hj.trans hlt
    have hsame : (s.protoTotalVote.map Producer.owner)[j]?
        = (s.protoTotalVote.map Producer.owner)[i]? := by
      rw [List.getElem?_map, List.getElem?_map, h, List.getElem?_eq_getElem hlt', Option.map_some,
        Option.map_some, howner]
    have hij := (List.getElem?_inj (by rw [List.length_map]; exact hlt') (nodup_owners s)).mp hsame
    omega
  rw [getRank, hidx]
  exact if_pos hlt

/-- The accounts `get_top_nodes` lists, and their ranks. -/
theorem getRank_getTopNodes {top jobId i : ℕ} {node : Name}
    (h : (getTopNodes s top jobId)[i]? = some node) : getRank s node = i := by
  rw [getTopNodes, List.getElem?_map, Option.map_eq_some_iff] at h
  obtain ⟨p, hp, rfl⟩ := h
  exact getRank_of_getElem? hp

end Index

end VDexNode.Vote
