import VDexNode.Distribut.Periods

/-!
# VDexNode.Distribut.Rules — what a calculation credits, and by which rule

A `calcrewards` that goes through is `credited`: one row for every producer, under the next free key
of its scope, with the amount the rule gives at its rank (`calcrewardsBy_iff`).  The rule is looked
up under the id 2, whatever the job.

* `calcrewards_ranked` : **the producer at a position of the index is paid at that rank**, by a row
  of its own, and the other rows stay.
* `ownRule_iff` : **a job is paid by its own rule exactly when that rule and the one of id 2 agree
  on the call.**
-/

namespace VDexNode.Distribut

open Eosio

/-! ## Rows -/

/-- The key `add_reward` stores the next row of `node` under. -/
def State.nextId (s : State) (node : Name) : ℕ :=
  ((s.nodeReward.last (fun r => decide (r.node = node))).map (fun r => r.id + 1)).getD 0

/-- The memo of a reward. -/
def rewardMemo (jobId rank now : ℕ) : String :=
  toString jobId ++ " | " ++ toString (rank + 1) ++ " | " ++ toString now

section Rows

variable {s : State}

/-- No row has the next key. -/
theorem find_nextId {node : Name} (h : s.nextId node < 2 ^ 64 - 2) :
    s.nodeReward.find (toLex (node, s.nextId node)) = none := by
  have hid : s.nodeReward.availablePrimaryKey (fun r => decide (r.node = node)) NodeReward.id
      = .ok (s.nextId node) := Table.availablePrimaryKey_eq_ok.mpr ⟨h, rfl⟩
  refine Table.find_eq_none.mpr (fun r hr hkey => ?_)
  obtain ⟨hnode, hrid⟩ := Prod.mk.inj (toLex.injective hkey)
  have hlt := Table.lt_availablePrimaryKey hid (fun a b ha hb hab => ?_) hr (decide_eq_true hnode)
  · omega
  · -- within one scope the keys are ordered by the ids
    rcases Prod.Lex.toLex_lt_toLex.mp hab with hlt | ⟨-, hlt⟩
    · simp only at hlt
      rw [of_decide_eq_true ha, of_decide_eq_true hb] at hlt
      exact absurd hlt (lt_irrefl node)
    · exact hlt

/-- `add_reward` stores a row under the next key, if there is one. -/
theorem addReward_iff {node : Name} {amount : Asset} {memo : String} {r : State × NodeReward} :
    addReward s node amount memo = .ok r ↔ s.nextId node < 2 ^ 64 - 2 ∧
      r = ({ s with nodeReward := s.nodeReward.put ⟨node, s.nextId node, amount, memo⟩ },
        ⟨node, s.nextId node, amount, memo⟩) := by
  simp only [addReward, bind_eq_ok, Table.availablePrimaryKey_eq_ok, Table.emplace_eq_ok,
    pure_eq_ok]
  constructor
  · rintro ⟨_, ⟨hlt, rfl⟩, _, ⟨-, rfl⟩, rfl⟩
    exact ⟨hlt, rfl⟩
  · rintro ⟨hlt, rfl⟩
    exact ⟨_, ⟨hlt, rfl⟩, _, ⟨find_nextId hlt, rfl⟩, rfl⟩

/-- A new row leaves the next keys of other nodes as they are. -/
theorem nextId_put {row : NodeReward} (hnew : s.nodeReward.find row.key = none) {node : Name}
    (hne : row.node ≠ node) :
    State.nextId { s with nodeReward := s.nodeReward.put row } node = s.nextId node := by
  have hfilter := Table.filter_put_of_not (p := fun r : NodeReward => decide (r.node = node)) hnew
    (decide_eq_false hne)
  rw [State.nextId, State.nextId, Table.last, Table.last, hfilter]

end Rows

section Votes

variable {D : Type} [Field D] [LinearOrder D] (env : Env D) (s : State)

/-! ## The loop -/

/-- What a node is credited by a rule. -/
def creditOf (rule : RewardInfo) (jobId : ℕ) (node : Name) : Credit :=
  let rank := Vote.getRank env.voting node
  ⟨env.now, jobId,
    ⟨node, s.nextId node, rule.amountAt rank, rewardMemo jobId rank env.now⟩⟩

/-- The pending rows with a further row for each of the nodes. -/
def rowsFor (rule : RewardInfo) (jobId : ℕ) (l : List Name) (t : Table NodeReward.key) :
    Table NodeReward.key :=
  (l.map (fun node => (creditOf env s rule jobId node).row)).foldl Table.put t

/-- All producers, in the order of the index. -/
def nodes : List Name := env.voting.protoTotalVote.map Vote.Producer.owner

/-- Every producer has a key left for one more row. -/
def Room : Prop := ∀ node ∈ nodes env, s.nextId node < 2 ^ 64 - 2

/-- The tables and the rows after a calculation by a rule. -/
def credited (jobId : ℕ) (rule : RewardInfo) : State × List Credit :=
  ({ s with
    rewardhistory := s.rewardhistory.put ⟨jobId, env.now⟩
    nodeReward := rowsFor env s rule jobId (nodes env) s.nodeReward },
    (nodes env).map (creditOf env s rule jobId))

variable {env s}

/-- The loop of `calcrewards` goes through exactly when every node has a key left. -/
theorem creditLoop_iff {rule : RewardInfo} {jobId : ℕ} {l : List Name}
    {acc r : State × List Credit} (hnodup : l.Nodup)
    (hids : ∀ node ∈ l, acc.1.nextId node = s.nextId node) :
    l.foldlM (creditNode env rule jobId) acc = .ok r ↔
      (∀ node ∈ l, s.nextId node < 2 ^ 64 - 2) ∧
      r = ({ acc.1 with nodeReward := rowsFor env s rule jobId l acc.1.nodeReward },
        acc.2 ++ l.map (creditOf env s rule jobId)) := by
  induction l generalizing acc with
  | nil =>
    have hself : (acc = r) ↔ r = acc := eq_comm
    rw [List.foldlM_nil, pure_eq_ok, hself]
    simp [rowsFor]
  | cons node l ih =>
    obtain ⟨hnotin, hnodup⟩ := List.nodup_cons.mp hnodup
    have hid := hids node List.mem_cons_self
    -- the state after the turn of `node`
    let next : State × List Credit :=
      ({ acc.1 with nodeReward := acc.1.nodeReward.put (creditOf env s rule jobId node).row },
        acc.2 ++ [creditOf env s rule jobId node])
    have hturn : ∀ mid, creditNode env rule jobId acc node = .ok mid ↔
        s.nextId node < 2 ^ 64 - 2 ∧ mid = next := by
      intro mid
      simp only [creditNode, bind_eq_ok, addReward_iff, pure_eq_ok, hid]
      constructor
      · rintro ⟨_, ⟨hlt, rfl⟩, rfl⟩
        exact ⟨hlt, rfl⟩
      · rintro ⟨hlt, rfl⟩
        exact ⟨_, ⟨hlt, rfl⟩, rfl⟩
    -- it leaves the keys of the nodes still to come
    have hnext : s.nextId node < 2 ^ 64 - 2 → ∀ other ∈ l,
        next.1.nextId other = s.nextId other := by
      intro hlt other hother
      have hnew : acc.1.nodeReward.find (creditOf env s rule jobId node).row.key = none := by
        rw [← hid] at hlt
        have hfree := find_nextId hlt
        rw [hid] at hfree
        exact hfree
      have hne : node ≠ other := fun he => hnotin (he ▸ hother)
      rw [← hids other (List.mem_cons_of_mem _ hother)]
      exact nextId_put hnew hne
    have htail : s.nextId node < 2 ^ 64 - 2 →
        (l.foldlM (creditNode env rule jobId) next = .ok r ↔
          (∀ node ∈ l, s.nextId node < 2 ^ 64 - 2) ∧
          r = ({ acc.1 with nodeReward := rowsFor env s rule jobId (node :: l) acc.1.nodeReward },
            acc.2 ++ (node :: l).map (creditOf env s rule jobId))) := by
      intro hlt
      rw [ih hnodup (hnext hlt), List.map_cons, ← List.append_cons]
      rfl
    rw [foldlM_cons_eq_ok, List.forall_mem_cons]
    constructor
    · rintro ⟨mid, hmid, h⟩
      obtain ⟨hlt, rfl⟩ := (hturn mid).mp hmid
      obtain ⟨hall, hr⟩ := (htail hlt).mp h
      exact ⟨⟨hlt, hall⟩, hr⟩
    · rintro ⟨⟨hlt, hall⟩, hr⟩
      exact ⟨next, (hturn next).mpr ⟨hlt, rfl⟩, (htail hlt).mpr ⟨hall, hr⟩⟩

/-! ## The rule -/

/-- `calcrewards` with the rule looked up under `id`. -/
def calcrewardsBy (env : Env D) (s : State) (id jobId : ℕ) : Result (State × List Credit) := do
  let rewardIter ← s.rewards.get id "unknown job_id"
  let s ← stampHistory env.now s rewardIter jobId
  let topNodes := Vote.getTopNodes env.voting rewardIter.standbyRankThreshold jobId
  topNodes.foldlM (creditNode env rewardIter jobId) (s, [])

theorem calcrewards_eq (account : Name) (jobId : ℕ) :
    calcrewards env s account jobId = calcrewardsBy env s 2 jobId := rfl

/-- The rule of `id`, if its period lets `jobId` through. -/
def State.passing (s : State) (now jobId id : ℕ) : Option RewardInfo :=
  (s.rewards.find id).filter (fun rule => decide (PeriodElapsed s rule now jobId))

theorem passing_eq_some {now jobId id : ℕ} {rule : RewardInfo} :
    s.passing now jobId id = some rule ↔
      s.rewards.find id = some rule ∧ PeriodElapsed s rule now jobId := by
  rw [State.passing, Option.filter_eq_some_iff, decide_eq_true_eq]

/-- The new time of a job that has been let through. -/
theorem stampHistory_eq_ok {now jobId : ℕ} {rule : RewardInfo} {s' : State} :
    stampHistory now s rule jobId = .ok s' ↔ PeriodElapsed s rule now jobId ∧
      s' = { s with rewardhistory := s.rewardhistory.put ⟨jobId, now⟩ } := by
  constructor
  · exact stampHistory_ok
  · rintro ⟨helapsed, rfl⟩
    obtain ⟨s', h⟩ := stampHistory_iff.mpr helapsed
    rw [h, (stampHistory_ok h).2]

/-- **A calculation** goes through exactly when every producer has a key left and a rule lets the
job through, and credits all producers by that rule. -/
theorem calcrewardsBy_iff {id jobId : ℕ} {r : State × List Credit} :
    calcrewardsBy env s id jobId = .ok r ↔
      Room env s ∧ (s.passing env.now jobId id).map (credited env s jobId) = some r := by
  simp only [calcrewardsBy, bind_eq_ok, Table.get_eq_ok, stampHistory_eq_ok,
    Option.map_eq_some_iff, passing_eq_some]
  have hloop : ∀ rule, (Vote.getTopNodes env.voting (RewardInfo.standbyRankThreshold rule)
      jobId).foldlM (creditNode env rule jobId)
        ({ s with rewardhistory := s.rewardhistory.put ⟨jobId, env.now⟩ }, []) = .ok r ↔
      Room env s ∧ r = credited env s jobId rule := fun rule =>
    creditLoop_iff (Vote.nodup_owners env.voting) (fun _ _ => rfl)
  constructor
  · rintro ⟨rule, hrule, _, ⟨helapsed, rfl⟩, h⟩
    obtain ⟨hroom, rfl⟩ := (hloop rule).mp h
    exact ⟨hroom, rule, ⟨hrule, helapsed⟩, rfl⟩
  · rintro ⟨hroom, rule, ⟨hrule, helapsed⟩, rfl⟩
    exact ⟨rule, hrule, _, ⟨helapsed, rfl⟩, (hloop rule).mpr ⟨hroom, rfl⟩⟩

/-! ## Ranks -/

/-- The rank of a node is its position. -/
theorem getRank_nodes {i : ℕ} {node : Name} (h : (nodes env)[i]? = some node) :
    Vote.getRank env.voting node = i := by
  have hlisted : (Vote.getTopNodes env.voting 0 0)[i]? = some node := h
  exact Vote.getRank_getTopNodes hlisted

/-- What a node at a position is credited. -/
theorem creditOf_row {rule : RewardInfo} {jobId i : ℕ} {node : Name}
    (h : (nodes env)[i]? = some node) :
    (creditOf env s rule jobId node).row =
      ⟨node, s.nextId node, rule.amountAt i, rewardMemo jobId i env.now⟩ := by
  rw [creditOf, getRank_nodes h]

/-- The rows of a node after a calculation: a new one if it is a producer. -/
theorem rewardsOf_of_moves {self : Name} {s' : State} {rule : RewardInfo} {jobId : ℕ}
    (h : Moves self s s' ((nodes env).map (creditOf env s rule jobId)) []) (node : Name) :
    (s'.rewardsOf node).Perm (((nodes env).filter (fun n => decide (n = node))).map
      (fun n => (creditOf env s rule jobId n).row) ++ s.rewardsOf node) := by
  obtain ⟨removed, hremoved, hperm⟩ := h
  rw [List.map_eq_nil_iff.mp hremoved.symm, List.append_nil] at hperm
  have hfilter := hperm.filter (fun r => decide (r.node = node))
  rw [List.filter_append, List.map_map, List.filter_map] at hfilter
  exact hfilter

/-- **Ranks**: a `calcrewards` that goes through gives the producer at a position of the index one
row more, with the amount and the memo of its position; so the first ones, up to the threshold, are
paid the reward and the others the standby amount.  No other row comes or goes. -/
theorem calcrewards_ranked {account : Name} {jobId : ℕ} {s' : State} {credits : List Credit}
    (h : calcrewards env s account jobId = .ok (s', credits)) :
    ∃ rule, s.rewards.find 2 = some rule ∧
      let listed := Vote.getTopNodes env.voting rule.standbyRankThreshold jobId
      let rewarded := min rule.rankThreshold listed.length
      listed.Perm (env.voting.producers.rows.map Vote.Producer.owner) ∧
      credits.length = listed.length ∧
      (∀ i node, listed[i]? = some node → Vote.getRank env.voting node = i ∧
        ∃ row, (credits.map Credit.row)[i]? = some row ∧ row.node = node ∧
          row.memo = toString jobId ++ " | " ++ toString (i + 1) ++ " | " ++ toString env.now ∧
          (s'.rewardsOf node).Perm (row :: s.rewardsOf node)) ∧
      (∀ c ∈ credits.take rewarded, c.row.amount = rule.rewardAmount) ∧
      (∀ c ∈ credits.drop rewarded, c.row.amount = rule.standbyAmount) ∧
      ∀ node, node ∉ listed → (s'.rewardsOf node).Perm (s.rewardsOf node) := by
  obtain ⟨-, -, -, -, -, -, hmove⟩ := calcrewards_ok account h
  rw [calcrewards_eq, calcrewardsBy_iff] at h
  obtain ⟨-, h⟩ := h
  obtain ⟨rule, hpass, hcredited⟩ := Option.map_eq_some_iff.mp h
  obtain rfl : (nodes env).map (creditOf env s rule jobId) = credits :=
    congrArg Prod.snd hcredited
  refine ⟨rule, (passing_eq_some.mp hpass).1, ?_⟩
  intro listed rewarded
  have hlisted : listed = nodes env := rfl
  have hamount : ∀ i c, ((nodes env).map (creditOf env s rule jobId))[i]? = some c →
      c.row.amount = rule.amountAt i := by
    intro i c hc
    rw [List.getElem?_map] at hc
    obtain ⟨node, hnode, rfl⟩ := Option.map_eq_some_iff.mp hc
    rw [creditOf_row hnode]
  refine ⟨(Vote.protoTotalVote_perm env.voting).map Vote.Producer.owner, List.length_map _,
    fun i node hi => ?_, fun c hc => ?_, fun c hc => ?_, fun node hnode => ?_⟩
  · refine ⟨Vote.getRank_getTopNodes hi, (creditOf env s rule jobId node).row, ?_, ?_, ?_, ?_⟩
    · rw [hlisted] at hi
      rw [List.map_map, List.getElem?_map, hi]
      rfl
    · rfl
    · rw [creditOf_row hi]
      rfl
    · -- the node is listed once
      have hone : (nodes env).filter (fun n => decide (n = node)) = [node] := by
        have hmem : node ∈ nodes env := List.mem_of_getElem? hi
        have hnodup : (nodes env).Nodup := Vote.nodup_owners env.voting
        rw [List.filter_eq, List.count_eq_one_of_mem hnodup hmem]
        rfl
      have hperm := rewardsOf_of_moves hmove node
      rw [hone] at hperm
      exact hperm
  · obtain ⟨i, hi, rfl⟩ := List.mem_take_iff_getElem.mp hc
    rw [hamount i _ (List.getElem?_eq_getElem _)]
    exact if_pos (by omega)
  · obtain ⟨i, hi, rfl⟩ := List.mem_drop_iff_getElem.mp hc
    rw [hamount _ _ (List.getElem?_eq_getElem (by omega)), RewardInfo.amountAt]
    have hlen : ((nodes env).map (creditOf env s rule jobId)).length = listed.length :=
      List.length_map _
    exact if_neg (by omega)
  · have hnone : (nodes env).filter (fun n => decide (n = node)) = [] := by
      refine List.filter_eq_nil_iff.mpr (fun n hn heq => hnode ?_)
      rw [← of_decide_eq_true heq]
      exact hn
    have hperm := rewardsOf_of_moves hmove node
    rw [hnone] at hperm
    exact hperm

/-- A rule of 50 for job 1 and one of 500 for job 2, both for the first producer only. -/
def unequalRules : Table RewardInfo.rewardId :=
  let rule (id : ℕ) (amount : ℤ) : RewardInfo :=
    ⟨id, 86400, ⟨amount, Stak.vtx⟩, ⟨10, Stak.vtx⟩, 1, 1, "", ""⟩
  (Table.empty.put (rule 1 50)).put (rule 2 500)

/-- Two producers without votes. -/
def twoProducers (now : ℕ) : Env ℚ where
  auths := []
  now := now
  voting :=
    let producer (owner : String) : Vote.Producer ℚ :=
      ⟨Name.ofString owner, 0, true, "", "", "", "", [1, 2]⟩
    ⟨(Table.empty.put (producer "bob")).put (producer "alice"), Table.empty⟩

/-- The first by name gets the reward and the other one the standby amount. -/
theorem calcrewards_ranked_two : ∃ s' credits,
    calcrewards (twoProducers 1000) { rewards := unequalRules } (Name.ofString "bob") 1
      = .ok (s', credits) ∧
    credits.length = 2 ∧ (∀ c ∈ credits.take 1, c.row.amount = ⟨500, Stak.vtx⟩) ∧
      ∀ c ∈ credits.drop 1, c.row.amount = ⟨10, Stak.vtx⟩ := by
  obtain ⟨⟨s', credits⟩, h⟩ := exists_of_isOk
    (x := calcrewards (twoProducers 1000) { rewards := unequalRules } (Name.ofString "bob") 1)
    (by decide +kernel)
  obtain ⟨rule, hrule, -, hlen, -, hfirst, hrest, -⟩ := calcrewards_ranked h
  have hfind : unequalRules.find 2
      = some ⟨2, 86400, ⟨500, Stak.vtx⟩, ⟨10, Stak.vtx⟩, 1, 1, "", ""⟩ := by decide +kernel
  obtain rfl := Option.some.inj (hfind.symm.trans hrule)
  exact ⟨s', credits, h, hlen, hfirst, hrest⟩

/-! ## The rule of the job -/

/-- The amounts a rule gives at the first `n` ranks. -/
def RewardInfo.amounts (rule : RewardInfo) (n : ℕ) : List Asset := (List.range n).map rule.amountAt

/-- `calcrewards` by the rule of the job. -/
def calcrewardsOf (env : Env D) (s : State) (_account : Name) (jobId : ℕ) :
    Result (State × List Credit) :=
  calcrewardsBy env s jobId jobId

/-- `uptime` that pays each of the two jobs by its own rule. -/
def uptimeOf (self : Name) (env : Env D) (s : State) (account : Name) (_nodeId _memo : String) :
    Result (State × List Credit × List TransferAction) := do
  let _jobIdsNew ← Vote.getJobs env.voting account
  let (s, credits₁) ← calcrewardsOf env s account 1
  let (s, credits₂) ← calcrewardsOf env s account 2
  let (s, transfers) := env.voting.producers.rows.foldl (payProducer self) (s, [])
  return (s, credits₁ ++ credits₂, transfers)

/-- The rule of id 2 and that of the job either both let the job through, with the same amounts at
the ranks of the producers, or both do not. -/
def RulesAgree (env : Env D) (s : State) (jobId : ℕ) : Prop :=
  (s.passing env.now jobId 2).map (·.amounts (nodes env).length) =
    (s.passing env.now jobId jobId).map (·.amounts (nodes env).length)

instance (env : Env D) (s : State) (jobId : ℕ) : Decidable (RulesAgree env s jobId) :=
  inferInstanceAs (Decidable (_ = _))

/-- Two rules give the same credits exactly when they give the same amounts at the ranks there
are. -/
theorem map_creditOf_eq_iff {rule rule' : RewardInfo} {jobId : ℕ} :
    (nodes env).map (creditOf env s rule jobId) = (nodes env).map (creditOf env s rule' jobId) ↔
      rule.amounts (nodes env).length = rule'.amounts (nodes env).length := by
  rw [RewardInfo.amounts, RewardInfo.amounts, List.map_inj_left, List.map_inj_left]
  constructor
  · intro h i hi
    have hnode := List.getElem?_eq_getElem (List.mem_range.mp hi)
    have hrow := congrArg (fun c => c.row.amount) (h _ (List.mem_of_getElem? hnode))
    simp only [creditOf_row hnode] at hrow
    exact hrow
  · intro h node hnode
    obtain ⟨i, hi⟩ := List.mem_iff_getElem?.mp hnode
    have hlt := (List.getElem?_eq_some_iff.mp hi).1
    rw [creditOf, creditOf, getRank_nodes hi, h i (List.mem_range.mpr hlt)]

theorem credited_eq_iff {rule rule' : RewardInfo} {jobId : ℕ} :
    credited env s jobId rule = credited env s jobId rule' ↔
      rule.amounts (nodes env).length = rule'.amounts (nodes env).length := by
  have hmap : (nodes env).map (creditOf env s rule jobId)
      = (nodes env).map (creditOf env s rule' jobId) ↔ _ := map_creditOf_eq_iff
  rw [← hmap]
  constructor
  · exact congrArg Prod.snd
  · intro h
    have hrows := congrArg (List.map Credit.row) h
    rw [List.map_map, List.map_map] at hrows
    rw [credited, credited, h, rowsFor, rowsFor]
    simp only [Function.comp_def] at hrows
    rw [hrows]

/-- Images of two options are equal under one map exactly when they are under another that tells the
same values apart. -/
theorem map_eq_map_iff {α β γ : Type} {f : α → β} {g : α → γ} (h : ∀ a b, f a = f b ↔ g a = g b)
    {o o' : Option α} : o.map f = o'.map f ↔ o.map g = o'.map g := by
  cases o with
  | none => cases o' <;> simp
  | some a =>
    cases o' with
    | none => simp
    | some b => simpa using h a b

/-- **The rule of the job**: `calcrewards` does what it does by the rule of the job exactly when
some producer has no key left, so that both abort, or the rule of id 2 and that of the job agree on
the call; and an `uptime` that goes through pays both jobs by their own rules exactly when those of
ids 1 and 2 agree on job 1. -/
theorem ownRule_iff (env : Env D) (s : State) :
    (∀ account jobId, (∀ r, calcrewards env s account jobId = .ok r ↔
        calcrewardsOf env s account jobId = .ok r) ↔ (Room env s → RulesAgree env s jobId)) ∧
      ∀ self account nodeId memo r, uptime self env s account nodeId memo = .ok r →
        (uptimeOf self env s account nodeId memo = .ok r ↔ RulesAgree env s 1) := by
  have hagree : ∀ jobId, (s.passing env.now jobId 2).map (credited env s jobId) =
      (s.passing env.now jobId jobId).map (credited env s jobId) ↔ RulesAgree env s jobId :=
    fun jobId => map_eq_map_iff (fun _ _ => credited_eq_iff)
  refine ⟨fun account jobId => ?_, fun self account nodeId memo r h => ?_⟩
  · rw [← hagree]
    simp only [calcrewards_eq, calcrewardsOf, calcrewardsBy_iff]
    constructor
    · intro hall hroom
      refine Option.ext (fun r => ?_)
      simpa [hroom] using hall r
    · intro himp r
      refine and_congr_right (fun hroom => ?_)
      rw [himp hroom]
  · simp only [uptime, calcrewards_eq, bind_eq_ok, pure_eq_ok] at h
    obtain ⟨jobs, hjobs, ⟨s₁, credits₁⟩, h₁, ⟨s₂, credits₂⟩, h₂, rfl⟩ := h
    obtain ⟨hroom, hpaid⟩ := calcrewardsBy_iff.mp h₁
    constructor
    · intro hown
      simp only [uptimeOf, calcrewardsOf, bind_eq_ok, pure_eq_ok, Prod.mk.injEq] at hown
      obtain ⟨-, -, ⟨s₁', credits₁'⟩, h₁', ⟨s₂', credits₂'⟩, -, -, hcredits, -⟩ := hown
      obtain ⟨-, hpaid'⟩ := calcrewardsBy_iff.mp h₁'
      obtain ⟨rule, hpass, hrule⟩ := Option.map_eq_some_iff.mp hpaid
      obtain ⟨rule', hpass', hrule'⟩ := Option.map_eq_some_iff.mp hpaid'
      obtain rfl : (nodes env).map (creditOf env s rule 1) = credits₁ := congrArg Prod.snd hrule
      obtain rfl : (nodes env).map (creditOf env s rule' 1) = credits₁' := congrArg Prod.snd hrule'
      -- the credits of job 1 come first, one for each producer
      have hfirst := (List.append_inj hcredits (by rw [List.length_map, List.length_map])).1
      rw [RulesAgree, hpass, hpass', Option.map_some, Option.map_some,
        map_creditOf_eq_iff.mp hfirst]
    · intro hrules
      rw [(hagree 1).mpr hrules] at hpaid
      simp only [uptimeOf, calcrewardsOf, bind_eq_ok, pure_eq_ok]
      exact ⟨jobs, hjobs, ⟨s₁, credits₁⟩, calcrewardsBy_iff.mpr ⟨hroom, hpaid⟩,
        ⟨s₂, credits₂⟩, h₂, rfl⟩

/-- Job 1 is paid 500. -/
theorem unequalRules_mixed : ¬ ∀ (env : Env ℚ) (s : State) (account : Name) (jobId : ℕ)
    (r : State × List Credit), calcrewards env s account jobId = .ok r ↔
      calcrewardsOf env s account jobId = .ok r := by
  intro h
  obtain ⟨r, hr⟩ := exists_of_isOk
    (x := calcrewards (twoProducers 1000) { rewards := unequalRules } (Name.ofString "bob") 1)
    (by decide +kernel)
  have hown := (h _ _ _ _ r).mp hr
  exact absurd (hr.trans hown.symm) (by decide +kernel)

end Votes

end VDexNode.Distribut
