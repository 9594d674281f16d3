import VDexNode.Distribut.Rewards

/-!
# VDexNode.Distribut.Rate — how often a node is credited

`calcrewards` stores the time of the last calculation under the job id it is called with, and waits
for the period of the rule of id 2, whatever the job.

* `RateLimited`: in a window shorter than every configured period, a node is credited at most once
  for each configured rule.
* `Guarded`: a job id that is let through is the id of a configured rule, and its next time does
  not wrap around 32 bits.  When every call of a run is guarded, the run is rate limited.
-/

namespace VDexNode.Distribut

open Eosio

/-! ## The limit -/

/-- The credits of `node` between the times `a` and `b`. -/
def window (node : Name) (a b : ℕ) (cs : List Credit) : List Credit :=
  cs.filter (fun c => decide (c.row.node = node ∧ a ≤ c.time ∧ c.time ≤ b))

/-- At most one credit for each configured rule in any window shorter than every period. -/
def RateLimited (rules : Table RewardInfo.rewardId) (cs : List Credit) : Prop :=
  ∀ node a b, (∀ rule ∈ rules.rows, b < a + rule.rewardPeriod) →
    (window node a b cs).length ≤ rules.rows.length ∧
      ((window node a b cs).map Credit.jobId).Nodup ∧
      ∀ c ∈ window node a b cs, ∃ rule ∈ rules.rows, rule.rewardId = c.jobId

/-! ## Guarded calls -/

/-- The check `calcrewards` makes before it credits `jobId`, against the rule of id 2. -/
def PeriodElapsed (s : State) (rule : RewardInfo) (now jobId : ℕ) : Prop :=
  ∀ last ∈ s.rewardhistory.find jobId, (last.lastTimestamp + rule.rewardPeriod) % 2 ^ 32 ≤ now

instance (s : State) (rule : RewardInfo) (now jobId : ℕ) :
    Decidable (PeriodElapsed s rule now jobId) :=
  inferInstanceAs (Decidable (∀ last ∈ _, _))

/-- If `jobId` is let through, then it is the id of a configured rule, and the end of its period
does not wrap around. -/
def GuardedJob (s : State) (now jobId : ℕ) : Prop :=
  ∀ rule ∈ s.rewards.find 2, PeriodElapsed s rule now jobId →
    s.rewards.find jobId ≠ none ∧
      ∀ last ∈ s.rewardhistory.find jobId, last.lastTimestamp + rule.rewardPeriod < 2 ^ 32

instance (s : State) (now jobId : ℕ) : Decidable (GuardedJob s now jobId) :=
  inferInstanceAs (Decidable (∀ rule ∈ _, _ → _ ∧ ∀ last ∈ _, _))

/-- The job ids a call credits are guarded. -/
def Guarded {D : Type} (s : State) (call : Env D × Action) : Prop :=
  match call.2 with
  | .calcrewards _ jobId => GuardedJob s call.1.now jobId
  | .uptime _ _ _ => GuardedJob s call.1.now 1 ∧ GuardedJob s call.1.now 2
  | _ => True

instance {D : Type} (s : State) (call : Env D × Action) : Decidable (Guarded s call) := by
  unfold Guarded
  split <;> infer_instance

/-! ## The invariant -/

/-- Credits of one job to one node lie a period apart, and the history holds the last time. -/
structure Spaced (rules : Table RewardInfo.rewardId) (s : State) (cs : List Credit) : Prop where
  rules_eq : s.rewards = rules
  last : ∀ c ∈ cs, ∃ h, s.rewardhistory.find c.jobId = some h ∧ c.time ≤ h.lastTimestamp
  apart : cs.Pairwise (fun c c' => c.jobId = c'.jobId → c.row.node = c'.row.node →
    ∃ rule ∈ rules.rows, c.time + rule.rewardPeriod ≤ c'.time)
  configured : ∀ c ∈ cs, rules.find c.jobId ≠ none

section Spaced

variable {D : Type} [Field D] [LinearOrder D] {rules : Table RewardInfo.rewardId} {self : Name}
  {s s' : State} {cs : List Credit} {env : Env D}

theorem Spaced.congr (h : Spaced rules s cs) (hsame : SameRules s s') : Spaced rules s' cs where
  rules_eq := hsame.1.trans h.rules_eq
  last := by
    rw [hsame.2]
    exact h.last
  apart := h.apart
  configured := h.configured

/-- A guarded `calcrewards` keeps the credits apart. -/
theorem Spaced.of_calcrewards (h : Spaced rules s cs) {account : Name} {jobId : ℕ}
    {credits : List Credit} (hg : GuardedJob s env.now jobId)
    (hc : calcrewards env s account jobId = .ok (s', credits)) :
    Spaced rules s' (cs ++ credits) ∧
      (∀ j, j ≠ jobId → s'.rewardhistory.find j = s.rewardhistory.find j) := by
  obtain ⟨rule, hrule, hlast, hrewards, hhist, ⟨hnodes, hall⟩, -⟩ := calcrewards_ok account hc
  simp only at hrewards hhist hnodes hall
  obtain ⟨hconf, hwrap⟩ := hg rule hrule hlast
  have hfind : ∀ j, s'.rewardhistory.find j =
      if j = jobId then some ⟨jobId, env.now⟩ else s.rewardhistory.find j := fun j => by
    rw [hhist, Table.find_put]
  refine ⟨⟨hrewards.trans h.rules_eq, fun c hcs => ?_, ?_, fun c hcs => ?_⟩, fun j hj => ?_⟩
  · rw [hfind]
    rcases List.mem_append.mp hcs with hcs | hcs
    · obtain ⟨l, hl, hle⟩ := h.last c hcs
      split_ifs with hj
      · -- the old time of the job plus its period is behind us
        rw [hj] at hl
        have hnow := hlast l hl
        rw [Nat.mod_eq_of_lt (hwrap l hl)] at hnow
        exact ⟨_, rfl, by simp only; omega⟩
      · exact ⟨l, hl, hle⟩
    · obtain ⟨htime, hjob⟩ := hall c hcs
      rw [if_pos hjob]
      exact ⟨_, rfl, htime.le⟩
  · refine List.pairwise_append.mpr ⟨h.apart, ?_, fun c hcs c' hcs' hjobs _ => ?_⟩
    · -- one call credits each producer once
      have hnodup : (credits.map (fun c => c.row.node)).Nodup := by
        rw [hnodes]
        exact Vote.nodup_owners env.voting
      refine (List.pairwise_map.mp hnodup).imp (fun hne _ hnode => ?_)
      exact absurd hnode hne
    · obtain ⟨htime', hjob'⟩ := hall c' hcs'
      obtain ⟨l, hl, hle⟩ := h.last c hcs
      rw [hjobs.trans hjob'] at hl
      have hnow := hlast l hl
      rw [Nat.mod_eq_of_lt (hwrap l hl)] at hnow
      rw [h.rules_eq] at hrule
      exact ⟨rule, Table.find_mem hrule, by omega⟩
  · rcases List.mem_append.mp hcs with hcs | hcs
    · exact h.configured c hcs
    · rw [(hall c hcs).2, ← h.rules_eq]
      exact hconf
  · rw [hfind, if_neg hj]

/-- **Step lemma**: a guarded call that leaves the rules alone keeps the credits apart. -/
theorem Spaced.of_perform (h : Spaced rules s cs) {action : Action} {receipt : Receipt}
    (hg : Guarded s (env, action)) (hp : perform self s env action = .ok (s', receipt))
    (hrules : s'.rewards = rules) : Spaced rules s' (cs ++ receipt.credits) := by
  cases action with
  | calcrewards account jobId =>
    exact (h.of_calcrewards hg (perform_calcrewards hp).1).1
  | uptime account nodeId memo =>
    obtain ⟨s₁, s₂, credits₁, credits₂, h₁, h₂, hcredits, hsame, -⟩ := uptime_ok (perform_uptime hp)
    obtain ⟨hg₁, hg₂⟩ := hg
    obtain ⟨hsp₁, hother⟩ := h.of_calcrewards hg₁ h₁
    -- job 1 leaves the record of job 2 and the rules as they were
    have hg₂' : GuardedJob s₁ env.now 2 := by
      unfold GuardedJob PeriodElapsed at hg₂ ⊢
      rw [hother 2 (by omega), hsp₁.rules_eq, ← h.rules_eq]
      exact hg₂
    obtain ⟨hsp₂, -⟩ := hsp₁.of_calcrewards hg₂' h₂
    simp only at hcredits
    rw [hcredits, ← List.append_assoc]
    exact hsp₂.congr hsame
  | getreward node =>
    cases hp
    simp only [List.append_nil]
    exact h.congr (getreward_moves self s node).1
  | _ =>
    obtain ⟨rfl, -, hhist⟩ := perform_still rfl hp
    rw [List.append_nil]
    exact ⟨hrules, hhist ▸ h.last, h.apart, h.configured⟩

/-- Credits that are a period apart are rate limited. -/
theorem Spaced.rateLimited (h : Spaced rules s cs) : RateLimited rules cs := by
  intro node a b hshort
  have hnodup : ((window node a b cs).map Credit.jobId).Nodup := by
    have hpair := List.Pairwise.and_mem.mp (h.apart.sublist
      (List.filter_sublist (p := fun c => decide (c.row.node = node ∧ a ≤ c.time ∧ c.time ≤ b))))
    refine List.pairwise_map.mpr (hpair.imp ?_)
    rintro c c' ⟨hc, hc', hapart⟩ hjob
    obtain ⟨hnode, hlo, -⟩ := of_decide_eq_true (List.mem_filter.mp hc).2
    obtain ⟨hnode', -, hhi⟩ := of_decide_eq_true (List.mem_filter.mp hc').2
    obtain ⟨rule, hrule, hle⟩ := hapart hjob (hnode.trans hnode'.symm)
    have := hshort rule hrule
    omega
  have hconf : ∀ c ∈ window node a b cs, ∃ rule ∈ rules.rows, rule.rewardId = c.jobId := by
    intro c hc
    obtain ⟨rule, hrule⟩ := Option.ne_none_iff_exists'.mp
      (h.configured c (List.mem_filter.mp hc).1)
    exact ⟨rule, Table.find_mem hrule, Table.find_key hrule⟩
  refine ⟨?_, hnodup, hconf⟩
  have hsub : (window node a b cs).map Credit.jobId ⊆ rules.rows.map RewardInfo.rewardId := by
    intro j hj
    obtain ⟨c, hc, rfl⟩ := List.mem_map.mp hj
    obtain ⟨rule, hrule, hid⟩ := hconf c hc
    exact List.mem_map.mpr ⟨rule, hrule, hid⟩
  have hlen := (List.subperm_of_subset hnodup hsub).length_le
  simpa using hlen

end Spaced

/-! ## Runs -/

section Runs

variable {D : Type} [Field D] [LinearOrder D]

/-- The call leaves the reward rules as they are. -/
def KeepsRules (self : Name) (s : State) (call : Env D × Action) : Prop :=
  (next (step self) s call).rewards = s.rewards

instance (self : Name) (s : State) (call : Env D × Action) : Decidable (KeepsRules self s call) :=
  inferInstanceAs (Decidable (_ = _))

/-- **Rate limit**: a run over unchanging rules whose calls are all guarded is rate limited. -/
theorem emission_limited (self : Name) (rules : Table RewardInfo.rewardId)
    (calls : List (Env D × Action))
    (hrules : Along (step self) (KeepsRules self) { rewards := rules } calls)
    (hguard : Along (step self) Guarded { rewards := rules } calls) :
    RateLimited rules (credits (run (step self) { rewards := rules } calls).2) := by
  have hboth : Along (step self) (fun s call => KeepsRules self s call ∧ Guarded s call)
      { rewards := rules } calls := hrules.and hguard
  have hspaced : Spaced rules (run (step self) { rewards := rules } calls).1
      (credits (run (step self) { rewards := rules } calls).2) := by
    refine run_invariant_of (fun s log => Spaced rules s (credits log)) _
      ⟨rfl, by simp [credits], by simp [credits], by simp [credits]⟩ ?_ calls hboth
    rintro s log ⟨env, action⟩ s' out hsp ⟨hkeep, hg⟩ hs
    obtain ⟨receipt, hp, rfl⟩ := step_ok hs
    rw [KeepsRules, next_of_ok hs, hsp.rules_eq] at hkeep
    have hnew := hsp.of_perform hg hp hkeep
    simpa [credits] using hnew
  exact hspaced.rateLimited

/-- Rules 1 and 2, each with a period of a day. -/
def dailyRules : Table RewardInfo.rewardId :=
  let rule (id : ℕ) : RewardInfo := ⟨id, 86400, ⟨500, Stak.vtx⟩, ⟨100, Stak.vtx⟩, 3, 3, "", ""⟩
  (Table.empty.put (rule 1)).put (rule 2)

/-- The caller `node`, who is the only producer, at the given time. -/
def onlyProducer (now : ℕ) : Env ℚ where
  auths := []
  now := now
  voting :=
    ⟨Table.empty.put ⟨Name.ofString "node", 0, true, "", "", "", "", [1, 2]⟩, Table.empty⟩

theorem emission_limited_uptime :
    RateLimited dailyRules (credits (run (step (Name.ofString "vtxdistribut"))
      { rewards := dailyRules } [(onlyProducer 1000, .uptime (Name.ofString "node") "" ""),
        (onlyProducer 1001, .calcrewards (Name.ofString "node") 1),
        (onlyProducer 87400, .uptime (Name.ofString "node") "" "")]).2) :=
  emission_limited _ _ _ (by decide +kernel) (by decide +kernel)

/-- Three job ids, two rules, one second. -/
theorem unknownJob_credited : ¬ ∀ (self : Name) (rules : Table RewardInfo.rewardId)
    (calls : List (Env ℚ × Action)),
    Along (step self) (KeepsRules self) { rewards := rules } calls →
    RateLimited rules (credits (run (step self) { rewards := rules } calls).2) := by
  intro h
  let node := Name.ofString "node"
  have hlim := h (Name.ofString "vtxdistribut") dailyRules
    [(onlyProducer 1000, .calcrewards node 1), (onlyProducer 1000, .calcrewards node 2),
      (onlyProducer 1000, .calcrewards node 3)] (by decide +kernel) node 1000 1000
    (by decide +kernel)
  exact absurd hlim.1 (by decide +kernel)

end Runs

end VDexNode.Distribut
