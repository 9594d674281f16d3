import VDexNode.Mpt.Lockstep

/-!
# VDexNode.Mpt.Stateful — programs by their states

`main` of a client is a chain of pieces between two polls: a piece starts from the local variables
so far and the vector it has just read, and ends with new variables or stops.  A `Stateful` program
is given by these pieces.

* `state_lockstep` : in step, the clients come through the states of a run of the rounds.
* `Steps.reached` : **in every order of the requests, no client of a full session stops, and each is
  in the state that it has in the run of the rounds.**
-/

namespace VDexNode.Mpt

open Api

variable {M S α : Type}

/-! ## Reading a vector -/

/-- The entries of a vector, decoded. -/
def decodeVec (get : M → Option α) (vec : List M) : Result (List α) :=
  vec.mapM (fun m => unwrap (get m))

/-- The entries of the others in the vector of a round of broadcasts, decoded. -/
def readOthers (get : M → Option α) (vec : List M) (partyNum : ℕ) : Result (List α) :=
  decodeVec get (vec.eraseIdx (partyNum - 1))

theorem decodeVec_map {get : M → Option α} {mk : α → M} (hget : ∀ x, get (mk x) = some x)
    (l : List α) : decodeVec get (l.map mk) = .ok l := by
  unfold decodeVec
  rw [List.mapM_map]
  have hall := mapM_eq_ok_map (fun x (_ : x ∈ l) => unwrap_eq_ok.mpr (hget x))
  rw [List.map_id'] at hall
  exact hall

/-- The entries of the others, taken out of a full vector. -/
theorem readOthers_eq {get : M → Option α} {mk : α → M} (hget : ∀ x, get (mk x) = some x)
    (f : ℕ → α) {n i : ℕ} (h1 : 1 ≤ i) (hi : i ≤ n) :
    readOthers get ((List.range' 1 n).map (fun j => mk (f j))) i = .ok ((others n i).map f) := by
  have hothers : ((List.range' 1 n).map (fun j => mk (f j))).eraseIdx (i - 1) =
      ((others n i).map f).map mk := by
    rw [List.eraseIdx_map, eraseIdx_range' h1 hi, List.map_map]
    rfl
  unfold readOthers
  rw [hothers]
  exact decodeVec_map hget _

/-- What a poll of messages has read are the entries under the own number. -/
theorem lookup_of_pollForP2p {n p : ℕ} {entries : ℕ → List (ℕ × α)} {ansVec : List α}
    (h : pollForP2p ((List.range' 1 n).map (fun j => (j, entries j))) p n = .ok ansVec) :
    (others n p).map (fun j => (entries j).lookup p) = ansVec.map some := by
  have hpolled := congrArg (List.map Except.toOption) (map_eq_of_mapM h)
  rw [List.map_map, List.map_map] at hpolled
  refine (List.map_congr_left (fun j hj => ?_)).trans hpolled
  have hj := mem_range'_one.mpr (mem_others.mp hj).1
  dsimp only [Function.comp_apply]
  rw [lookup_board entries hj, Option.bind_some]
  cases (entries j).lookup p with
  | none => rfl
  | some a => rfl

/-- Messages that have each been found, as they are posted. -/
theorem map_of_lookup {l : List ℕ} {entry : ℕ → Option α} {ansVec : List α}
    (h : l.map entry = ansVec.map some) {m : ℕ → M} {mk : α → M}
    (hm : ∀ j a, entry j = some a → m j = mk a) : l.map m = ansVec.map mk := by
  induction l generalizing ansVec with
  | nil =>
    cases ansVec with
    | nil => rfl
    | cons a rest => cases h
  | cons j l ih =>
    cases ansVec with
    | nil => cases h
    | cons a rest =>
      obtain ⟨hfirst, hrest⟩ := List.cons.inj h
      rw [List.map_cons, List.map_cons, hm j a hfirst, ih hrest]

/-! ## Rounds that end -/

section Polls

variable {Pt V W : Type} {num : Pt → ℕ} {party : ℕ → Pt} {v : ℕ → V} {n : ℕ}

/-- A round of broadcasts that ends: every party has read what the others post. -/
theorem exists_map_of_broadcasts {post : Pt → V → α} {next : Pt → V → List α → Result W}
    {read : List (ℕ × α) → Pt → Result (List α)} {r : List (Pt × W)} (hn : 1 ≤ n)
    (hnum : ∀ i, num (party i) = i)
    (hread : ∀ board i, read board (party i) = pollForBroadcasts board i n)
    (h : syncRound num post read next ((List.range' 1 n).map (fun i => (party i, v i))) = .ok r) :
    ∃ w : ℕ → W, r = (List.range' 1 n).map (fun i => (party i, w i)) ∧
      ∀ i, 1 ≤ i → i ≤ n →
        next (party i) (v i) ((others n i).map (fun j => post (party j) (v j))) = .ok (w i) := by
  obtain ⟨w, hr, hw⟩ := exists_map_of_syncRound hn hnum h
  refine ⟨w, hr, fun i h1 hi => ?_⟩
  obtain ⟨ansVec, hpoll, hnext⟩ := hw i h1 hi
  rw [hread, pollForBroadcasts_board (fun i => post (party i) (v i))] at hpoll
  rw [Except.ok.inj hpoll]
  exact hnext

/-- A round of messages that ends: every party has read what the others address to it. -/
theorem exists_map_of_p2p {post : Pt → V → List (ℕ × α)} {next : Pt → V → List α → Result W}
    {read : List (ℕ × List (ℕ × α)) → Pt → Result (List α)} {r : List (Pt × W)} (hn : 1 ≤ n)
    (hnum : ∀ i, num (party i) = i)
    (hread : ∀ board i, read board (party i) = pollForP2p board i n)
    (h : syncRound num post read next ((List.range' 1 n).map (fun i => (party i, v i))) = .ok r) :
    ∃ w : ℕ → W, r = (List.range' 1 n).map (fun i => (party i, w i)) ∧
      ∀ i, 1 ≤ i → i ≤ n → ∃ ansVec,
        (others n i).map (fun j => (post (party j) (v j)).lookup i) = ansVec.map some ∧
          next (party i) (v i) ansVec = .ok (w i) := by
  obtain ⟨w, hr, hw⟩ := exists_map_of_syncRound hn hnum h
  refine ⟨w, hr, fun i h1 hi => ?_⟩
  obtain ⟨ansVec, hpoll, hnext⟩ := hw i h1 hi
  rw [hread] at hpoll
  exact ⟨ansVec, lookup_of_pollForP2p hpoll, hnext⟩

end Polls

/-! ## States -/

/-- A program by states: what is posted in a state, to all or to one of the others, and the state
after the vector of the round.  A client that has stopped posts nothing; `stopped` stands for it. -/
structure Stateful (M S : Type) where
  start : S
  post : S → ℕ → Result M
  next : S → List M → Result S
  stopped : M

namespace Stateful

variable (p : Stateful M S)

/-- The state after the rounds of `past`. -/
def state (past : List (List M)) : Result S := past.foldlM p.next p.start

/-- What is posted in a state. -/
def send (st : S) (dest : ℕ) : M :=
  match p.post st dest with
  | .ok m => m
  | .error _ => p.stopped

/-- What is posted after the rounds of `past`. -/
def sendAfter (past : List (List M)) (dest : ℕ) : M :=
  match p.state past with
  | .ok st => p.send st dest
  | .error _ => p.stopped

theorem send_of_post {st : S} {dest : ℕ} {m : M} (h : p.post st dest = .ok m) :
    p.send st dest = m := by
  unfold send
  rw [h]

theorem sendAfter_of_state {past : List (List M)} {st : S} (h : p.state past = .ok st)
    (dest : ℕ) : p.sendAfter past dest = p.send st dest := by
  unfold sendAfter
  rw [h]

theorem state_concat {past : List (List M)} {st : S} (h : p.state past = .ok st) (vec : List M) :
    p.state (past ++ [vec]) = p.next st vec := by
  unfold state at h ⊢
  rw [List.foldlM_append, h, ok_bind, List.foldlM_cons]
  cases p.next st vec with
  | error e => rfl
  | ok st' => rfl

/-- The client whose pieces depend on the number it gets. -/
def program (k : Kind) (ph : ℕ → Stateful M S) : Program M where
  kind := k
  broadcast signup past := (ph signup.number).sendAfter past 0
  p2p signup past i := (ph signup.number).sendAfter past i

end Stateful

/-! ## The rounds -/

/-- The vector that party `i` reads when the parties are in the states `v`. -/
def vecOf (n : ℕ) (ph : ℕ → Stateful M S) (rd : Round) (v : ℕ → S) (i : ℕ) : List M :=
  if rd.p2p then (others n i).map (fun j => (ph j).send (v j) i)
  else (List.range' 1 n).map (fun j => (ph j).send (v j) 0)

/-- A run of the rounds: `v r i` is the state of party `i` after `r` rounds. -/
structure Steps (n : ℕ) (k : Kind) (ph : ℕ → Stateful M S) (v : ℕ → ℕ → S) : Prop where
  start : ∀ i, v 0 i = (ph i).start
  next : ∀ r rd, k.rounds[r]? = some rd → ∀ i, 1 ≤ i → i ≤ n →
    (ph i).next (v r i) (vecOf n ph rd (v r) i) = .ok (v (r + 1) i)

section Steps

variable {n : ℕ} {k : Kind} {ph : ℕ → Stateful M S} {v : ℕ → ℕ → S} {uuid : String}
  {prog : ℕ → Program M}

/-- In step, the parties come through the states of the run. -/
theorem Steps.state_lockstep (h : Steps n k ph v)
    (hprog : ∀ i, 1 ≤ i → i ≤ n → ∃ ph', prog i = Stateful.program k ph' ∧ ph' i = ph i) :
    ∀ r, r ≤ k.rounds.length → ∀ i, 1 ≤ i → i ≤ n →
      (ph i).state (lockstep n uuid prog k r i) = .ok (v r i)
  | 0, _, i, _, _ => by
    rw [h.start]
    rfl
  | r + 1, hr, i, h1, hi => by
    obtain ⟨rd, hrd⟩ : ∃ rd, k.rounds[r]? = some rd := ⟨_, List.getElem?_eq_getElem hr⟩
    have ih := h.state_lockstep hprog r (Nat.le_of_succ_le hr)
    have hvec : roundVec n uuid prog rd (lockstep n uuid prog k r) i = vecOf n ph rd (v r) i := by
      have hsend : ∀ j dest, 1 ≤ j → j ≤ n →
          (ph j).sendAfter (lockstep n uuid prog k r j) dest = (ph j).send (v r j) dest :=
        fun j dest hj1 hjn => (ph j).sendAfter_of_state (ih j hj1 hjn) dest
      unfold roundVec vecOf
      by_cases hp2p : rd.p2p = true
      · rw [if_pos hp2p, if_pos hp2p]
        refine List.map_congr_left (fun j hj => ?_)
        obtain ⟨hj1, hjn⟩ := (mem_others.mp hj).1
        obtain ⟨ph', hprog', hph'⟩ := hprog j hj1 hjn
        rw [← hsend j i hj1 hjn, ← hph', hprog']
        rfl
      · rw [if_neg hp2p, if_neg hp2p]
        refine List.map_congr_left (fun j hj => ?_)
        obtain ⟨hj1, hjn⟩ := mem_range'_one.mp hj
        obtain ⟨ph', hprog', hph'⟩ := hprog j hj1 hjn
        rw [← hsend j 0 hj1 hjn, ← hph', hprog']
        rfl
    rw [lockstep_succ n uuid prog hrd, (ph i).state_concat (ih i h1 hi), hvec]
    exact h.next r rd hrd i h1 hi

end Steps

section Run

variable {N : Network M} {k : Kind} {ph : ℕ → Stateful M S} {v : ℕ → ℕ → S} {uuid : String}
  {holder : ℕ → ℕ} {acts : List ℕ}

/-- **Every order of the requests** takes the clients of a full session through the states of the
run. -/
theorem Steps.reached (h : Steps (k.parties N.setup.params) k ph v)
    (hn : 1 ≤ N.setup.params.parties)
    (hfull : FullSession N k uuid holder (run (step N) (init N) acts).2)
    (hprog : ∀ i, 1 ≤ i → i ≤ k.parties N.setup.params →
      ∃ ph', N.program (holder i) = Stateful.program k ph' ∧ ph' i = ph i)
    {i : ℕ} {l : Locals M} (h1 : 1 ≤ i) (hi : i ≤ k.parties N.setup.params)
    (hl : (run (step N) (init N) acts).1.clients (holder i) = some l) :
    (ph i).state l.past = .ok (v l.past.length i) := by
  obtain ⟨hinv, htraced⟩ := traced_run hn acts
  obtain ⟨hkind, -, -⟩ := hfull.client hinv h1 hi
  have hshort := htraced.short (holder i) l hl
  rw [hkind] at hshort
  have hstate : (ph i).state (lockstep (k.parties N.setup.params) uuid
      (fun j => N.program (holder j)) k l.past.length i) = .ok (v l.past.length i) :=
    h.state_lockstep hprog l.past.length hshort i h1 hi
  rw [← hfull.past_eq_lockstep hn h1 hi hl] at hstate
  exact hstate

end Run

end VDexNode.Mpt
