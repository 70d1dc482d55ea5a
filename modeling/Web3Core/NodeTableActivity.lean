/-
What noting a node as active does to its bucket.  The node goes to the back, and
what was behind it is gone.
-/
import Web3Core.DatagramRoundTrip
import Web3Core.NodeTable

namespace Web3Core

namespace NodeTable

/-- The entry `p` goes to the back of its bucket, and nothing else happens to
the buckets; no eviction is started. -/
structure MovesBack (t t' : NodeTable) (i : Fin s_bins) (p : NodePtr) :
    Prop where
  bucket : t'.state i = (t.state i).filter (· ≠ p) ++ [p]
  others : ∀ j, j ≠ i → t'.state j = t.state j
  evictions : t'.evictions = t.evictions
  timers : t'.timers = t.timers
  sent : t'.sent = t.sent

theorem takeWhile_length_lt {b : List NodePtr} {p : NodePtr} (hp : p ∈ b) :
    (b.takeWhile (· ≠ p)).length < b.length := by
  induction b with
  | nil => cases hp
  | cons q b ih =>
      by_cases hq : q = p
      · simp [hq]
      · have hrest : p ∈ b := (List.mem_cons.mp hp).resolve_left (Ne.symm hq)
        rw [List.takeWhile_cons_of_pos (by simpa using hq)]
        exact Nat.succ_lt_succ (ih hrest)

/-- What comes before an entry is all but the entry exactly if nothing else is
behind it. -/
theorem takeWhile_eq_filter_iff (b : List NodePtr) (p : NodePtr) :
    b.takeWhile (· ≠ p) = b.filter (· ≠ p) ↔
      ∀ q, q ≠ p → ¬ [p, q].Sublist b := by
  induction b with
  | nil => simp
  | cons r b ih =>
      by_cases hr : r = p
      · subst hr
        rw [List.takeWhile_cons_of_neg (by simp), List.filter_cons_of_neg (by simp),
          eq_comm, List.filter_eq_nil_iff]
        constructor
        · intro hall q hne hsub
          have hq : q ∈ b :=
            List.singleton_sublist.mp (List.cons_sublist_cons.mp hsub)
          exact hall q hq (by simpa using hne)
        · intro hall q hq hne
          exact hall q (by simpa using hne)
            ((List.singleton_sublist.mpr hq).cons_cons r)
      · rw [List.takeWhile_cons_of_pos (by simpa using hr),
          List.filter_cons_of_pos (by simpa using hr), List.cons_inj_right, ih]
        refine forall_congr' fun q => imp_congr_right fun _ => not_congr ?_
        rw [List.cons_sublist_cons']
        exact (or_iff_left fun h => hr h.1.symm).symm

/-- A node that is in its bucket is noted as active: it goes to the back of the
bucket exactly if nothing else is behind it there, so that it is at the back
already. -/
theorem noteActiveNode_iff (ctx : NodeContext) (m : Moment) (t : NodeTable)
    (pubk : NodeID) (endpoint : UDPEndpoint) (p : NodePtr) (e : NodeEntry)
    (i : Fin s_bins) (hother : pubk ≠ t.node.id)
    (hallowed : endpoint.both.isAllowed ctx.allowLocal = true)
    (hnode : t.nodes pubk = some p) (he : t.entries[p]? = some e)
    (hpending : e.pending = false) (hi : bucketUnsafe e = some i)
    (hp : p ∈ t.state i) (hlength : (t.state i).length ≤ s_bucketSize) :
    ∃ t', t.noteActiveNode ctx m pubk endpoint = some t' ∧
      (MovesBack t t' i p ↔ ∀ q, q ≠ p → ¬ [p, q].Sublist (t.state i)) := by
  have hroom : ((t.state i).takeWhile (· ≠ p)).length < s_bucketSize :=
    (takeWhile_length_lt hp).trans_le hlength
  have hnoted : t.noteActiveNode ctx m pubk endpoint =
      some ((t.modifyEntry p (·.setEndpoint endpoint)).setBucket i
        ((t.state i).takeWhile (· ≠ p) ++ [p])) := by
    have hnot : ¬ (pubk = t.node.id ∨
        ¬ endpoint.both.isAllowed ctx.allowLocal = true) := by
      simp [hother, hallowed]
    rw [noteActiveNode, if_neg hnot, hnode]
    dsimp only
    rw [he]
    dsimp only
    rw [hpending, if_neg Bool.false_ne_true, hi, Option.map_some, noteInBucket]
    have hstate : (t.modifyEntry p (·.setEndpoint endpoint)).state = t.state := rfl
    dsimp only
    rw [hstate, if_pos hroom, if_pos hp]
  refine ⟨_, hnoted, ?_⟩
  rw [← takeWhile_eq_filter_iff]
  constructor
  · intro h
    have hbucket := h.bucket
    rw [setBucket] at hbucket
    dsimp only at hbucket
    rw [Function.update_self] at hbucket
    exact List.append_cancel_right hbucket
  · intro hbucket
    refine ⟨?_, fun j hj => ?_, rfl, rfl, rfl⟩
    · rw [setBucket]
      dsimp only
      rw [Function.update_self, hbucket]
    · rw [setBucket]
      dsimp only
      exact Function.update_of_ne hj _ _

/-- A table with two nodes in a bucket. -/
def twoActive : NodeTable where
  node := ⟨RLP.alignRight 64 [1], {}, .optional⟩
  entries := [
    ⟨⟨RLP.alignRight 64 [4], {}, .optional⟩, 2, false⟩,
    ⟨⟨RLP.alignRight 64 [5], {}, .optional⟩, 2, false⟩]
  nodes := fun x =>
    if x = RLP.alignRight 64 [4] then some 0
    else if x = RLP.alignRight 64 [5] then some 1
    else none
  state := fun i => if i = ⟨1, by decide⟩ then [0, 1] else []
  isOpen := true

/-- The last of the two nodes stays where it is. -/
theorem noteActiveNode_iff_last :
    let ctx : NodeContext := ⟨DatagramPacket.plainDatagrams, false⟩
    let endpoint : UDPEndpoint := ⟨.v4 (RLP.alignRight 4 [8, 8, 8, 8]), 30303⟩
    ∃ t', twoActive.noteActiveNode ctx ⟨0, 0⟩ (RLP.alignRight 64 [5])
        endpoint = some t' ∧
      (MovesBack twoActive t' ⟨1, by decide⟩ 1 ↔
        ∀ q, q ≠ 1 → ¬ [1, q].Sublist (twoActive.state ⟨1, by decide⟩)) := by
  intro ctx endpoint
  exact noteActiveNode_iff ctx ⟨0, 0⟩ twoActive (RLP.alignRight 64 [5])
    endpoint 1 _ ⟨1, by decide⟩ (by decide) (by decide +kernel) rfl rfl rfl
    (by decide) (by decide) (by decide)

/-- The first of the two nodes is noted as active, and the other is gone. -/
theorem not_movesBack :
    let ctx : NodeContext := ⟨DatagramPacket.plainDatagrams, false⟩
    let endpoint : UDPEndpoint := ⟨.v4 (RLP.alignRight 4 [8, 8, 8, 8]), 30303⟩
    ∃ t', twoActive.noteActiveNode ctx ⟨0, 0⟩ (RLP.alignRight 64 [4])
        endpoint = some t' ∧
      twoActive.state ⟨1, by decide⟩ = [0, 1] ∧
      t'.state ⟨1, by decide⟩ = [0] ∧
      ¬ MovesBack twoActive t' ⟨1, by decide⟩ 0 := by
  intro ctx endpoint
  have hstate : (twoActive.noteActiveNode ctx ⟨0, 0⟩ (RLP.alignRight 64 [4])
      endpoint).map (fun t => t.state ⟨1, by decide⟩) = some [0] := by
    decide +kernel
  obtain ⟨t', hnoted, hbucket⟩ := Option.map_eq_some_iff.mp hstate
  refine ⟨t', hnoted, by decide, hbucket, fun h => ?_⟩
  have hmoved := h.bucket
  rw [hbucket] at hmoved
  exact absurd hmoved (by decide)

end NodeTable

end Web3Core
