import Mathlib.Analysis.Real.Sqrt
import Mathlib.Tactic.FieldSimp
import VDexNode.Vote.Spec

/-!
# VDexNode.Vote.Tally — the vote totals of `volentixvote`

`Tally`: every total is the sum of what the voter rows cast, every listed name is registered, and
every row's weight is the square root of its tokens over the length of its list.  All calls keep it
(`tally_step`).
-/

namespace VDexNode.Vote

open Eosio

section Tally

variable {D : Type} [Field D] {sqrt : D → D} {self : Name} {s s' : State D}

/-- The totals are what the voter rows cast. -/
structure Tally (sqrt : D → D) (s : State D) : Prop where
  votes : ∀ p ∈ s.producers.rows, p.totalVotes = s.voters.sum (fun v => v.cast p.owner)
  listed : ∀ v ∈ s.voters.rows, ∀ n ∈ v.producers, n ≠ v.owner ∧ s.Registered n
  weight : ∀ v ∈ s.voters.rows, v.votesPerProd = sqrt v.tokens / (v.producers.length : D)

theorem tally_init : Tally sqrt ({} : State D) := ⟨by simp, by simp, by simp⟩

theorem Tally.of_vote (ht : Tally sqrt s) {voterName : Name} {producers : List Name}
    {balanceTokens : D} {votingTime : ℕ}
    (h : vote sqrt s voterName producers balanceTokens votingTime = .ok s') : Tally sqrt s' := by
  obtain ⟨row, howner, hlist, hvpp, htok, hvoters, hall, hshift⟩ := vote_ok h
  refine ⟨fun p hp => ?_, fun v hv n hn => ?_, fun v hv => ?_⟩
  · -- the totals move as the sum over the voter rows does
    have hfind := hshift p.owner
    rw [Table.find_self hp] at hfind
    obtain ⟨q, hq, hpq⟩ := Option.map_eq_some_iff.mp hfind.symm
    have hkey : q.owner = p.owner := Table.find_key hq
    have htotal :
        p.totalVotes = q.totalVotes + (row.cast p.owner - s.castBy voterName p.owner) := by
      rw [← hpq, hkey]
    rw [htotal, ht.votes q (Table.find_mem hq), hvoters, hkey]
    cases hold : s.voters.find voterName with
    | none =>
      have hold' : s.voters.find row.owner = none := by rw [howner]; exact hold
      rw [Table.sum_put_new hold']
      simp [State.castBy, hold]
    | some old =>
      have hold' : s.voters.find row.owner = some old := by rw [howner]; exact hold
      have hsum := Table.sum_put_old hold' (fun v => v.cast p.owner)
      simp only [State.castBy, hold, Option.map_some, Option.getD_some]
      rw [← add_sub_assoc, ← hsum, add_sub_cancel_right]
  · rw [hvoters] at hv
    rcases Table.mem_put.mp hv with rfl | ⟨hv, -⟩
    · rw [hlist] at hn
      rw [howner]
      exact ⟨(hall n hn).1, (hshift.registered n).mpr (hall n hn).2⟩
    · obtain ⟨hne, hreg⟩ := ht.listed v hv n hn
      exact ⟨hne, (hshift.registered n).mpr hreg⟩
  · rw [hvoters] at hv
    rcases Table.mem_put.mp hv with rfl | ⟨hv, -⟩
    · rw [hvpp, htok, hlist]
    · exact ht.weight v hv

omit [Field D] in
/-- A registered name stays registered when a row is written. -/
theorem State.Registered.put {n : Name} (h : s.Registered n) (p : Producer D) :
    State.Registered { s with producers := s.producers.put p } n := by
  rw [State.Registered, Table.find_put]
  split_ifs
  · exact Option.some_ne_none p
  · exact h

/-- Rewriting a row but for its total. -/
theorem Tally.put_producer (ht : Tally sqrt s) {prod p : Producer D}
    (hprod : s.producers.find p.owner = some prod) (hvotes : p.totalVotes = prod.totalVotes) :
    Tally sqrt { s with producers := s.producers.put p } := by
  have howner : prod.owner = p.owner := Table.find_key hprod
  refine ⟨fun q hq => ?_, fun v hv n hn => ?_, ht.weight⟩
  · rcases Table.mem_put.mp hq with rfl | ⟨hq, -⟩
    · rw [hvotes, ht.votes prod (Table.find_mem hprod), howner]
    · exact ht.votes q hq
  · obtain ⟨hne, hreg⟩ := ht.listed v hv n hn
    exact ⟨hne, hreg.put p⟩

theorem Tally.of_regproducer (ht : Tally sqrt s) {env : Env} {producer : Name}
    {producerName url key nodeId : String} {jobIds : List ℕ}
    (h : regproducer env s producer producerName url key nodeId jobIds = .ok s') :
    Tally sqrt s' := by
  simp only [regproducer, bind_eq_ok, check_eq_ok, exists_const] at h
  obtain ⟨_, -, -, h⟩ := h
  cases hprod : s.producers.find producer with
  | some prod =>
    simp only [hprod, pure_eq_ok] at h
    subst h
    have hprod' : s.producers.find prod.owner = some prod := Table.find_self (Table.find_mem hprod)
    exact ht.put_producer hprod' rfl
  | none =>
    simp only [hprod, bind_eq_ok, Table.emplace_eq_ok, pure_eq_ok] at h
    obtain ⟨_, ⟨-, rfl⟩, rfl⟩ := h
    refine ⟨fun q hq => ?_, fun v hv n hn => ?_, ht.weight⟩
    · rcases Table.mem_put.mp hq with rfl | ⟨hq, -⟩
      · -- nobody has voted for an unregistered name
        have hzero : s.voters.sum (fun v => v.cast producer) = s.voters.sum (fun _ => 0) := by
          refine Table.sum_congr (fun v hv => ?_)
          have hnot : producer ∉ v.producers := fun hn => (ht.listed v hv producer hn).2 hprod
          simp [Voter.cast, List.count_eq_zero_of_not_mem hnot]
        simp only
        rw [hzero]
        simp [Table.sum]
      · exact ht.votes q hq
    · obtain ⟨hne, hreg⟩ := ht.listed v hv n hn
      exact ⟨hne, hreg.put _⟩

theorem Tally.of_setActive (ht : Tally sqrt s) {env : Env} {producer : Name} {isActive : Bool}
    (h : setActive env s producer isActive = .ok s') : Tally sqrt s' := by
  simp only [setActive, bind_eq_ok, Table.get_eq_ok, pure_eq_ok] at h
  obtain ⟨_, -, prod, hprod, rfl⟩ := h
  have hprod' : s.producers.find prod.owner = some prod := Table.find_self (Table.find_mem hprod)
  exact ht.put_producer hprod' rfl

/-- The names of a list are counted once each over the registered producers. -/
theorem sum_count (s : State D) : ∀ l : List Name, (∀ n ∈ l, s.Registered n) →
    s.producers.sum (fun p => (l.count p.owner : D)) = (l.length : D)
  | [], _ => by simp [Table.sum]
  | a :: l, h => by
    have ih := sum_count s l (fun n hn => h n (List.mem_cons_of_mem a hn))
    have hone : s.producers.sum (fun p => if p.owner = a then (1 : D) else 0) = 1 := by
      rw [Table.sum_ite_key s.producers a (fun _ => (1 : D))]
      obtain ⟨p, hp⟩ := Option.ne_none_iff_exists'.mp (h a List.mem_cons_self)
      rw [hp]
      rfl
    have hsplit : s.producers.sum (fun p => (((a :: l).count p.owner : ℕ) : D)) =
        s.producers.sum (fun p => (l.count p.owner : D) + if p.owner = a then 1 else 0) := by
      refine Table.sum_congr (fun p _ => ?_)
      rw [List.count_cons]
      by_cases hp : p.owner = a
      · simp [hp]
      · have hp' : ¬ a = p.owner := fun he => hp he.symm
        simp [hp, hp']
    rw [hsplit, Table.sum_add, ih, hone, List.length_cons]
    push_cast
    rfl

variable [LinearOrder D]

/-- **Step lemma**: every call keeps the tally. -/
theorem tally_step (ht : Tally sqrt s) {call : Env × Action} {out : List Empty}
    (h : step sqrt self s call = .ok (s', out)) : Tally sqrt s' := by
  simp only [step, bind_eq_ok, pure_eq_ok] at h
  obtain ⟨s₁, h, heq⟩ := h
  cases heq
  obtain ⟨env, action⟩ := call
  cases action with
  | regproducer producer producerName url key nodeId jobIds => exact ht.of_regproducer h
  | unregprod producer => exact ht.of_setActive h
  | activateprod producer => exact ht.of_setActive h
  | unregprodall => exact absurd h unregprodall_ne_ok
  | deluserinfo => exact absurd h deluserinfo_ne_ok
  | voteproducer voterName producers =>
    obtain ⟨-, -, staked, -, -, h⟩ := voteproducer_ok h
    exact ht.of_vote h
  | onUnstake owner =>
    obtain ⟨-, rfl | ⟨voter, -, -, h⟩⟩ := onUnstake_ok h
    · exact ht
    · exact ht.of_vote h

/-- **Run lemma**: every reachable state keeps the tally. -/
theorem tally_run (sqrt : D → D) (self : Name) (calls : List (Env × Action)) :
    Tally sqrt (run (step sqrt self) {} calls).1 :=
  run_invariant (fun s _ => Tally sqrt s) tally_init (fun _ _ _ _ _ ht h => tally_step ht h) calls

end Tally

/-- **Tally**: in every state a run reaches, each producer's total is the sum, over the voters, of
the number of times the voter lists it times the voter's weight per producer, and is not negative;
and all totals together are the square roots of the tokens of the voters with a list. -/
theorem tally_invariant (self : Name) (calls : List (Env × Action)) :
    let s := (run (step Real.sqrt self) {} calls).1
    (∀ p ∈ s.producers.rows,
      p.totalVotes = s.voters.sum (fun v => (v.producers.count p.owner : ℝ) * v.votesPerProd) ∧
      0 ≤ p.totalVotes) ∧
    s.producers.sum Producer.totalVotes =
      (s.voters.filter (fun v => decide (v.producers ≠ []))).sum (fun v => Real.sqrt v.tokens) := by
  intro s
  have ht : Tally Real.sqrt s := tally_run Real.sqrt self calls
  have hvpp : ∀ v ∈ s.voters.rows, 0 ≤ v.votesPerProd := fun v hv => by
    rw [ht.weight v hv]
    exact div_nonneg (Real.sqrt_nonneg _) (Nat.cast_nonneg _)
  refine ⟨fun p hp => ⟨ht.votes p hp, ?_⟩, ?_⟩
  · rw [ht.votes p hp]
    exact Table.sum_nonneg (fun v hv => mul_nonneg (Nat.cast_nonneg _) (hvpp v hv))
  · have hswap : s.producers.sum Producer.totalVotes =
        s.voters.sum (fun v => s.producers.sum (fun p => v.cast p.owner)) := by
      rw [← Table.sum_comm]
      exact Table.sum_congr ht.votes
    have heach : ∀ v ∈ s.voters.rows, s.producers.sum (fun p => v.cast p.owner) =
        if v.producers ≠ [] then Real.sqrt v.tokens else 0 := fun v hv => by
      have hcount := sum_count s v.producers (fun n hn => (ht.listed v hv n hn).2)
      have hmul : s.producers.sum (fun p => v.cast p.owner) =
          s.producers.sum (fun p => (v.producers.count p.owner : ℝ)) * v.votesPerProd :=
        List.sum_map_mul_right ..
      rw [hmul, hcount, ht.weight v hv]
      split_ifs with hne
      · have hlen : (v.producers.length : ℝ) ≠ 0 := by
          simpa [List.length_eq_zero_iff] using hne
        field_simp
      · rw [not_not.mp hne]
        simp
    rw [hswap, Table.sum_congr heach, Table.sum_filter]
    simp only [decide_eq_true_eq]

end VDexNode.Vote
