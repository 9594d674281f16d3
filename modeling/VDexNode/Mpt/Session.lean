import VDexNode.Mpt.Sign

/-!
# VDexNode.Mpt.Session — what a signer reads in a round

The signers of a session are numbered `1, …, n`.  In a round every signer reads the entries of the
others in the order of their numbers; with its own entry put back in place the vector is the same at
every signer, and with it removed again it is what the signer has read.

* `formatVecFromReads_others` : the full vector, at every signer.
* `remove_own` : the full vector without the own entry.
* `own_value_interleaved` : any received values with the own value among them.
* `broadcastRound_eq_ok`, `p2pRound_eq_ok` : **a round in which every signer's piece returns.**
-/

namespace VDexNode.Mpt

variable {α : Type}

/-! ## Vectors -/

/-- The entry of signer `i` in a full vector. -/
theorem index_range'_map {n i : ℕ} (f : ℕ → α) (h1 : 1 ≤ i) (hn : i ≤ n) :
    index ((List.range' 1 n).map f) (i - 1) = .ok (f i) := by
  rw [index_eq_ok, getElem?_range'_map f h1 hn]

/-- All entries of a vector, one by one. -/
theorem mapM_index {β : Type} {l : List α} {n : ℕ} (hn : l.length = n) (f : α → β) :
    (List.range n).mapM (fun i => do
      let x ← index l i
      return f x : ℕ → Result β) = .ok (l.map f) := by
  have hfrom : ∀ m k, l.length = k + m → (List.range' k m).mapM (fun i => do
      let x ← index l i
      return f x : ℕ → Result β) = .ok ((l.drop k).map f) := by
    intro m
    induction m with
    | zero =>
      intro k hk
      rw [List.drop_eq_nil_of_le (by omega)]
      rfl
    | succ m ih =>
      intro k hk
      have hlt : k < l.length := by omega
      have hidx : index l k = .ok l[k] := index_eq_ok.mpr (List.getElem?_eq_getElem hlt)
      rw [List.range'_succ, List.mapM_cons, hidx, ih (k + 1) (by omega),
        List.drop_eq_getElem_cons hlt]
      rfl
  rw [List.range_eq_range', hfrom n 0 (by omega), List.drop_zero]

theorem mapM_index_self {l : List α} {n : ℕ} (hn : l.length = n) :
    (List.range n).mapM (index l) = .ok l := by
  have h := mapM_index hn (fun x => x)
  simp only [bind_pure, List.map_id'] at h
  exact h

/-- **`format_vec_from_reads`** yields the full vector. -/
theorem formatVecFromReads_others {n p : ℕ} (h1 : 1 ≤ p) (hn : p ≤ n) (f : ℕ → α) :
    formatVecFromReads ((others n p).map f) p (f p) = .ok ((List.range' 1 n).map f) := by
  rw [formatVecFromReads, List.length_map, length_others h1 hn]
  refine forOthers_eq_ok (fun pre => pre.map f) (fun pre => ?_) (fun pre i j _ hj => ?_)
  · simp only [List.map_append, List.map_cons, List.map_nil]
  · simp only [index_map hj, ok_bind, List.map_append, List.map_cons, List.map_nil]
    rfl

theorem pred_eq_ok {x : ℕ} (h : 1 ≤ x) : pred x = .ok (x - 1) := by
  rw [pred, if_neg (by omega)]

/-- Removing the own entry again. -/
theorem remove_own {n p : ℕ} (h1 : 1 ≤ p) (hn : p ≤ n) (f : ℕ → α) :
    remove ((List.range' 1 n).map f) (p - 1) = .ok (f p, (others n p).map f) := by
  rw [remove, index_range'_map f h1 hn, ok_bind, List.eraseIdx_map, eraseIdx_range' h1 hn]
  rfl

/-- Inserting splits a list at the place. -/
theorem insertIdx_eq_take_drop {l : List α} {k : ℕ} (hk : k ≤ l.length) (v : α) :
    l.insertIdx k v = l.take k ++ v :: l.drop k := by
  induction k generalizing l with
  | zero => rfl
  | succ k ih =>
    cases l with
    | nil => exact absurd hk (Nat.not_succ_le_zero k)
    | cons a l =>
      rw [List.insertIdx_succ_cons, ih (Nat.le_of_succ_le_succ hk)]
      rfl

/-- Whatever has been received is an entry of every other party. -/
theorem exists_map_others {ansVec : List α} {p : ℕ} (h1 : 1 ≤ p) (hn : p ≤ ansVec.length + 1)
    (v : α) : ∃ f : ℕ → α, f p = v ∧ (others (ansVec.length + 1) p).map f = ansVec ∧
      (List.range' 1 (ansVec.length + 1)).map f = ansVec.insertIdx (p - 1) v := by
  let f : ℕ → α := fun i => (ansVec.insertIdx (p - 1) v).getD (i - 1) v
  have hlen : (ansVec.insertIdx (p - 1) v).length = ansVec.length + 1 :=
    List.length_insertIdx_of_le_length (by omega) v
  have hall : (List.range' 1 (ansVec.length + 1)).map f = ansVec.insertIdx (p - 1) v := by
    apply List.ext_getElem
    · rw [List.length_map, List.length_range', hlen]
    · intro i _ hi
      rw [List.getElem_map, List.getElem_range', one_mul]
      show (ansVec.insertIdx (p - 1) v).getD (1 + i - 1) v = _
      rw [Nat.add_sub_cancel_left, List.getD_eq_getElem _ _ hi]
  refine ⟨f, ?_, ?_, hall⟩
  · show (ansVec.insertIdx (p - 1) v).getD (p - 1) v = v
    rw [List.getD_eq_getElem?_getD, List.getElem?_insertIdx_self, if_pos (by omega),
      Option.getD_some]
  · rw [← eraseIdx_range' h1 hn, ← List.eraseIdx_map, hall, List.eraseIdx_insertIdx_self]

/-- The own value goes to the own position, whatever has been received. -/
theorem formatVecFromReads_eq {ansVec : List α} {p : ℕ} (h1 : 1 ≤ p) (hn : p ≤ ansVec.length + 1)
    (v : α) : formatVecFromReads ansVec p v = .ok (ansVec.insertIdx (p - 1) v) := by
  obtain ⟨f, hown, hothers, hall⟩ := exists_map_others h1 hn v
  have hread := formatVecFromReads_others h1 hn f
  rw [hothers, hown, hall] at hread
  exact hread

/-- The entry of another sender is the one it is read at. -/
theorem getElem?_insertIdx_others {ansVec : List α} {n p i j : ℕ} (h1 : 1 ≤ p) (hn : p ≤ n)
    (v : α) (hj : (others n p)[j]? = some i) :
    (ansVec.insertIdx (p - 1) v)[i - 1]? = ansVec[j]? := by
  rw [← eraseIdx_range' h1 hn, List.getElem?_eraseIdx] at hj
  by_cases hlt : j < p - 1
  · rw [if_pos hlt, List.getElem?_range' (by omega), one_mul, Option.some_inj] at hj
    rw [← hj, Nat.add_sub_cancel_left, List.getElem?_insertIdx_of_lt hlt]
  · rw [if_neg hlt] at hj
    have hrange : j + 1 < n := by
      have hlt := (List.getElem?_eq_some_iff.mp hj).1
      rw [List.length_range'] at hlt
      exact hlt
    rw [List.getElem?_range' hrange, one_mul, Option.some_inj] at hj
    rw [← hj, Nat.add_sub_cancel_left, List.getElem?_insertIdx_of_gt (by omega),
      Nat.add_sub_cancel]

/-- **Own and received values**: for every number of parties the vector has the own value at the
own position and at the position of every other party what has been received from it, and without
the own entry it is what has been received. -/
theorem own_value_interleaved {n p : ℕ} (h1 : 1 ≤ p) (hn : p ≤ n) {ansVec : List α}
    (hlen : ansVec.length + 1 = n) (v : α) :
    ∃ newVec, formatVecFromReads ansVec p v = .ok newVec ∧ newVec.length = n ∧
      newVec[p - 1]? = some v ∧ newVec = ansVec.take (p - 1) ++ v :: ansVec.drop (p - 1) ∧
      (∀ i j : ℕ, (others n p)[j]? = some i → newVec[i - 1]? = ansVec[j]?) ∧
      remove newVec (p - 1) = .ok (v, ansVec) := by
  have hle : p - 1 ≤ ansVec.length := by omega
  have hown : (ansVec.insertIdx (p - 1) v)[p - 1]? = some v := by
    rw [List.getElem?_insertIdx_self, if_pos hle]
  refine ⟨ansVec.insertIdx (p - 1) v, formatVecFromReads_eq h1 (by omega) v, ?_, hown, ?_,
    fun i j hj => getElem?_insertIdx_others h1 hn v hj, ?_⟩
  · rw [List.length_insertIdx_of_le_length hle, hlen]
  · exact insertIdx_eq_take_drop hle v
  · rw [remove, index_eq_ok.mpr hown, ok_bind, List.eraseIdx_insertIdx_self]
    rfl

/-- The third of four parties. -/
theorem own_value_interleaved_third :
    ∃ newVec, formatVecFromReads [10, 20, 40] 3 30 = .ok newVec ∧
      newVec = [10, 20, 30, 40] ∧ remove newVec 2 = .ok (30, [10, 20, 40]) := by
  have hlen : [10, 20, 40].length + 1 = 4 := rfl
  obtain ⟨newVec, hread, -, -, hvec, -, hremove⟩ := own_value_interleaved (n := 4) (p := 3)
    (by decide) (by decide) hlen 30
  exact ⟨newVec, hread, hvec, hremove⟩

/-! ## Rounds -/

theorem pollForBroadcasts_board {n p : ℕ} (f : ℕ → α) :
    pollForBroadcasts ((List.range' 1 n).map (fun i => (i, f i))) p n =
      .ok ((others n p).map f) := by
  refine mapM_eq_ok_map (fun i hi => ?_)
  have hmem : i ∈ List.range' 1 n := mem_range'_one.mpr (mem_others.mp hi).1
  rw [lookup_board f hmem]

theorem pollForP2p_board {n p : ℕ} (h1 : 1 ≤ p) (hn : p ≤ n) (f : ℕ → ℕ → α) :
    pollForP2p ((List.range' 1 n).map (fun i => (i, (others n i).map (fun j => (j, f i j))))) p n
      = .ok ((others n p).map (fun i => f i p)) := by
  refine mapM_eq_ok_map (fun i hi => ?_)
  obtain ⟨hi, hne⟩ := mem_others.mp hi
  have hmem : p ∈ others n i := mem_others.mpr ⟨⟨h1, hn⟩, fun h => hne h.symm⟩
  rw [lookup_board (fun i => (others n i).map (fun j => (j, f i j))) (mem_range'_one.mpr hi),
    Option.bind_some, lookup_board (f i) hmem]

section Rounds

variable {q : ℕ} {G : Type} {c : Curv q G} {P : Paillier} {V W : Type} {n : ℕ}
  {signer : ℕ → Signer c P} (hnum : ∀ i, (signer i).partyNumInt = i)
  (hthreshold : ∀ i, (signer i).threshold + 1 = n)

include hnum hthreshold

/-- **A round of broadcasts**: every signer reads what the others post. -/
theorem broadcastRound_eq_ok {post : Signer c P → V → α}
    {next : Signer c P → V → List α → Result W} {v : ℕ → V} {w : ℕ → W}
    (h : ∀ i, 1 ≤ i → i ≤ n →
      next (signer i) (v i) ((others n i).map (fun j => post (signer j) (v j))) = .ok (w i)) :
    broadcastRound post next ((List.range' 1 n).map (fun i => (signer i, v i)))
      = .ok ((List.range' 1 n).map (fun i => (signer i, w i))) := by
  have hsync : broadcastRound post next = syncRound Signer.partyNumInt post
      (fun board p => pollForBroadcasts board p.partyNumInt (p.threshold + 1)) next := rfl
  rw [hsync]
  refine (syncRound_outcome hnum (fun i _ _ => rfl) (fun i _ _ => ?_)
    (fun i h1 hn => .of_eq_ok (h i h1 hn))).eq_ok (fun _ hE => hE)
  rw [hnum, hthreshold]
  exact pollForBroadcasts_board _

/-- Every signer's piece of a round of broadcasts that ends has returned. -/
theorem exists_ok_of_broadcastRound {post : Signer c P → V → α}
    {next : Signer c P → V → List α → Result W} {v : ℕ → V} {r : List (Signer c P × W)}
    (h : broadcastRound post next ((List.range' 1 n).map (fun i => (signer i, v i))) = .ok r)
    {i : ℕ} (h1 : 1 ≤ i) (hn : i ≤ n) :
    ∃ w, next (signer i) (v i) ((others n i).map (fun j => post (signer j) (v j))) = .ok w := by
  have hsync : broadcastRound post next = syncRound Signer.partyNumInt post
      (fun board p => pollForBroadcasts board p.partyNumInt (p.threshold + 1)) next := rfl
  rw [hsync] at h
  have hmem : (signer i, v i) ∈ (List.range' 1 n).map (fun i => (signer i, v i)) :=
    List.mem_map_of_mem (mem_range'_one.mpr ⟨h1, hn⟩)
  obtain ⟨ansVec, w, hread, hnext⟩ := exists_ok_of_syncRound h hmem
  simp only [List.map_map, Function.comp_def, hnum, hthreshold] at hread
  rw [pollForBroadcasts_board (fun j => post (signer j) (v j))] at hread
  cases hread
  exact ⟨w, hnext⟩

/-- **The round of messages**: every signer reads what the others address to it. -/
theorem p2pRound_eq_ok {post : Signer c P → V → List (ℕ × α)}
    {next : Signer c P → V → List α → Result W} {v : ℕ → V} {w : ℕ → W} {f : ℕ → ℕ → α}
    (hpost : ∀ i, 1 ≤ i → i ≤ n → post (signer i) (v i) = (others n i).map (fun j => (j, f i j)))
    (h : ∀ i, 1 ≤ i → i ≤ n →
      next (signer i) (v i) ((others n i).map (fun j => f j i)) = .ok (w i)) :
    p2pRound post next ((List.range' 1 n).map (fun i => (signer i, v i)))
      = .ok ((List.range' 1 n).map (fun i => (signer i, w i))) := by
  have hsync : p2pRound post next = syncRound Signer.partyNumInt post
      (fun board p => pollForP2p board p.partyNumInt (p.threshold + 1)) next := rfl
  rw [hsync]
  refine (syncRound_outcome hnum hpost (fun i h1 hn => ?_)
    (fun i h1 hn => .of_eq_ok (h i h1 hn))).eq_ok (fun _ hE => hE)
  rw [hnum, hthreshold]
  exact pollForP2p_board h1 hn f

/-- Every signer's piece of a round of messages that ends has returned. -/
theorem exists_ok_of_p2pRound {post : Signer c P → V → List (ℕ × α)}
    {next : Signer c P → V → List α → Result W} {v : ℕ → V} {f : ℕ → ℕ → α}
    {r : List (Signer c P × W)}
    (hpost : ∀ i, 1 ≤ i → i ≤ n → post (signer i) (v i) = (others n i).map (fun j => (j, f i j)))
    (h : p2pRound post next ((List.range' 1 n).map (fun i => (signer i, v i))) = .ok r)
    {i : ℕ} (h1 : 1 ≤ i) (hn : i ≤ n) :
    ∃ w, next (signer i) (v i) ((others n i).map (fun j => f j i)) = .ok w := by
  have hsync : p2pRound post next = syncRound Signer.partyNumInt post
      (fun board p => pollForP2p board p.partyNumInt (p.threshold + 1)) next := rfl
  rw [hsync] at h
  have hmem : (signer i, v i) ∈ (List.range' 1 n).map (fun i => (signer i, v i)) :=
    List.mem_map_of_mem (mem_range'_one.mpr ⟨h1, hn⟩)
  have hboard : (List.range' 1 n).map (fun j => (j, post (signer j) (v j)))
      = (List.range' 1 n).map (fun j => (j, (others n j).map (fun k => (k, f j k)))) := by
    refine List.map_congr_left (fun j hj => ?_)
    obtain ⟨hj1, hjn⟩ := mem_range'_one.mp hj
    rw [hpost j hj1 hjn]
  obtain ⟨ansVec, w, hread, hnext⟩ := exists_ok_of_syncRound h hmem
  simp only [List.map_map, Function.comp_def, hnum, hthreshold] at hread
  rw [hboard, pollForP2p_board h1 hn f] at hread
  cases hread
  exact ⟨w, hnext⟩

end Rounds

end VDexNode.Mpt
