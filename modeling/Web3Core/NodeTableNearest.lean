/-
The nearest nodes.  All entries of the buckets that are visited are looked at,
so what is returned are the nearest of these; it rests on the buckets that are
not visited whether they are the nearest of all.
-/
import Web3Core.Nearest
import Web3Core.NodeTableBuckets

namespace Web3Core

namespace NodeTable

section Model

variable (ctx : NodeContext) (t : NodeTable) (target : NodeID)

/-- The distance of the node of an entry from a target. -/
def distanceTo (p : NodePtr) : Nat :=
  match t.entries[p]? with
  | none => 0
  | some e => distance ctx.crypto.sha3 target e.id

/-- An entry is live, and its endpoint is set and allowed. -/
def isUsable (p : NodePtr) : Bool :=
  t.isAlive p && t.entries[p]?.any fun e =>
    e.endpoint.isSet && e.endpoint.isAllowed ctx.allowLocal

/-- The live entries of all buckets whose endpoint is set and allowed. -/
def usable : List NodePtr :=
  ((List.range s_bins).flatMap fun i => (t.bucket i).getD []).filter
    (t.isUsable ctx)

/-- An entry is in a bucket that is visited: all are for the own hash, all but
the first for one at the smallest or the largest distance; else the first is
not, and of those below the distance no more than there are from it up. -/
def isVisited (p : NodePtr) : Bool :=
  let head := distance ctx.crypto.sha3 t.node.id target
  t.entries[p]?.any fun e => decide (head = 0 ∨
    (1 < e.distance ∧ (head = s_bins ∨ 2 * head < e.distance + s_bins)))

/-- The entries of the buckets that are visited for a target. -/
def visited : List NodePtr :=
  let head := distance ctx.crypto.sha3 t.node.id target
  (visitOrder head
    (if head = 0 then s_bins - 1 else (head - 1) % s_bins)).flatMap fun i =>
      (t.bucket i).getD []

end Model

variable {ctx : NodeContext} {own target : NodeID} {t : NodeTable} {p : NodePtr}
  {head i : Nat} {is : List Nat}

/-- The order for a distance that is neither small nor the largest. -/
theorem visitOrder_spread (hlow : 1 < head) (hhigh : head < s_bins) :
    visitOrder head (if head = 0 then s_bins - 1 else (head - 1) % s_bins) =
      (List.range (s_bins - head)).flatMap fun k =>
        (head + k) :: if head - 1 - k = 0 then [] else [head - 1 - k] := by
  have htail : (if head = 0 then s_bins - 1 else (head - 1) % s_bins) =
      head - 1 := by
    rw [if_neg (by omega), Nat.mod_eq_of_lt (by omega)]
  rw [htail, visitOrder, if_pos ⟨hlow, by omega⟩]

theorem visitOrder_up (hlow : head < 2) (tail : Nat) :
    visitOrder head tail = (List.range (s_bins - head)).map (head + ·) := by
  rw [visitOrder, if_neg (by omega), if_pos hlow]

theorem visitOrder_down :
    visitOrder s_bins (if s_bins = 0 then s_bins - 1 else (s_bins - 1) % s_bins) =
      (List.range (s_bins - 1)).map (s_bins - 1 - ·) := rfl

theorem mem_visitOrder_iff (hhead : head < s_bits) :
    i ∈ visitOrder head (if head = 0 then s_bins - 1 else (head - 1) % s_bins) ↔
      i < s_bins ∧
        (head = 0 ∨ (0 < i ∧ (head = s_bins ∨ 2 * head ≤ i + s_bins))) := by
  have hbins : s_bits = s_bins + 1 := rfl
  rcases Nat.lt_or_ge head 2 with hlow | hlow
  · rw [visitOrder_up hlow, List.mem_map]
    constructor
    · rintro ⟨k, hk, rfl⟩
      rw [List.mem_range] at hk
      omega
    · rintro ⟨hlt, hvisited⟩
      exact ⟨i - head, List.mem_range.mpr (by omega), by omega⟩
  · rcases Nat.lt_or_ge head s_bins with hhigh | hhigh
    · rw [visitOrder_spread hlow hhigh, List.mem_flatMap]
      constructor
      · rintro ⟨k, hk, hmem⟩
        rw [List.mem_range] at hk
        rcases List.mem_cons.mp hmem with rfl | hdown
        · omega
        · split at hdown
          · cases hdown
          · rw [List.mem_singleton.mp hdown]
            omega
      · rintro ⟨hlt, hvisited⟩
        rcases Nat.lt_or_ge i head with hbelow | habove
        · refine ⟨head - 1 - i, List.mem_range.mpr (by omega), ?_⟩
          rw [if_neg (by omega)]
          exact List.mem_cons_of_mem _ (List.mem_singleton.mpr (by omega))
        · exact ⟨i - head, List.mem_range.mpr (by omega),
            List.mem_cons.mpr (.inl (by omega))⟩
    · obtain rfl : head = s_bins := by omega
      rw [visitOrder_down, List.mem_map]
      constructor
      · rintro ⟨k, hk, rfl⟩
        rw [List.mem_range] at hk
        omega
      · rintro ⟨hlt, hvisited⟩
        exact ⟨s_bins - 1 - i, List.mem_range.mpr (by omega), by omega⟩

/-- No bucket is visited twice. -/
theorem nodup_visitOrder (hhead : head < s_bits) :
    (visitOrder head
      (if head = 0 then s_bins - 1 else (head - 1) % s_bins)).Nodup := by
  have hbins : s_bits = s_bins + 1 := rfl
  rcases Nat.lt_or_ge head 2 with hlow | hlow
  · rw [visitOrder_up hlow]
    exact List.nodup_range.map fun k k' h => Nat.add_left_cancel h
  · rcases Nat.lt_or_ge head s_bins with hhigh | hhigh
    · -- Those from the distance up and those below it are in the two cases.
      have hmem : ∀ {k i : Nat}, i ∈ (head + k) ::
          (if head - 1 - k = 0 then [] else [head - 1 - k]) →
          i = head + k ∨ (i = head - 1 - k ∧ i ≠ 0) := by
        intro k i hi
        rcases List.mem_cons.mp hi with rfl | hdown
        · exact .inl rfl
        · split at hdown
          · cases hdown
          · next hne =>
              rw [List.mem_singleton] at hdown
              exact .inr ⟨hdown, hdown ▸ hne⟩
      rw [visitOrder_spread hlow hhigh]
      refine List.nodup_flatMap.mpr ⟨fun k _ => ?_, ?_⟩
      · split
        · exact List.nodup_singleton _
        · rw [List.nodup_cons, List.mem_singleton]
          exact ⟨by omega, List.nodup_singleton _⟩
      · refine List.pairwise_lt_range.imp fun {k k'} hlt i hi hi' => ?_
        rcases hmem hi with hup | hdown
        · rcases hmem hi' with hup' | hdown'
          · omega
          · omega
        · rcases hmem hi' with hup' | hdown'
          · omega
          · omega
    · obtain rfl : head = s_bins := by omega
      rw [visitOrder_down]
      refine List.Nodup.map_on (fun k hk k' hk' heq => ?_) List.nodup_range
      rw [List.mem_range] at hk hk'
      omega

theorem mem_getD_bucket :
    p ∈ (t.bucket i).getD [] ↔ ∃ hi : i < s_bins, p ∈ t.state ⟨i, hi⟩ := by
  rw [bucket]
  split
  · next hi =>
      constructor
      · intro hp
        exact ⟨hi, hp⟩
      · rintro ⟨_, hp⟩
        exact hp
  · next hi =>
      constructor
      · intro hp
        cases hp
      · rintro ⟨hi', -⟩
        exact absurd hi' hi

namespace Filed

/-- An entry of a bucket is known, at the distance of the bucket. -/
theorem exists_entry (h : Filed ctx own t) {i : Fin s_bins} (hp : p ∈ t.state i) :
    ∃ e, t.entries[p]? = some e ∧ e.distance = i.val + 1 := by
  obtain ⟨e, he, -, -, hi⟩ := h.buckets i p hp
  exact ⟨e, he, ((bucketUnsafe_eq_some_iff (h.distance_lt he)).mp hi).symm⟩

/-- No entry is in two places. -/
theorem nodup_flatMap_bucket (h : Filed ctx own t) (his : is.Nodup) :
    (is.flatMap fun i => (t.bucket i).getD []).Nodup := by
  refine List.nodup_flatMap.mpr ⟨fun i _ => ?_, his.imp fun {i j} hne => ?_⟩
  · rw [bucket]
    split
    · exact h.nodup _
    · exact List.nodup_nil
  · intro p hp hp'
    obtain ⟨hi, hp⟩ := mem_getD_bucket.mp hp
    obtain ⟨hj, hp'⟩ := mem_getD_bucket.mp hp'
    obtain ⟨e, he, hdistance⟩ := h.exists_entry hp
    obtain ⟨e', he', hdistance'⟩ := h.exists_entry hp'
    rw [he, Option.some.injEq] at he'
    rw [he', hdistance'] at hdistance
    exact hne (Nat.succ_injective hdistance).symm

theorem nodup_visited (h : Filed ctx own t) (target : NodeID) :
    (t.visited ctx target).Nodup :=
  h.nodup_flatMap_bucket (nodup_visitOrder (NodeTable.distance_lt _ _ _))

theorem nodup_usable (h : Filed ctx own t) : (t.usable ctx).Nodup :=
  (h.nodup_flatMap_bucket List.nodup_range).filter _

/-- The usable entries of the buckets that are visited. -/
theorem perm_visited (h : Filed ctx own t) (target : NodeID) :
    ((t.visited ctx target).filter (t.isUsable ctx)).Perm
      ((t.usable ctx).filter (t.isVisited ctx target)) := by
  refine (List.perm_ext_iff_of_nodup ((h.nodup_visited target).filter _)
    (h.nodup_usable.filter _)).mpr fun p => ?_
  have hhead : NodeTable.distance ctx.crypto.sha3 t.node.id target < s_bits :=
    NodeTable.distance_lt _ _ _
  have hvisited : ∀ {i : Fin s_bins}, p ∈ t.state i →
      (t.isVisited ctx target p = true ↔
        (NodeTable.distance ctx.crypto.sha3 t.node.id target = 0 ∨ (0 < i.val ∧
          (NodeTable.distance ctx.crypto.sha3 t.node.id target = s_bins ∨
            2 * NodeTable.distance ctx.crypto.sha3 t.node.id target ≤
              i.val + s_bins)))) := by
    intro i hp
    obtain ⟨e, he, hdistance⟩ := h.exists_entry hp
    rw [isVisited, he, Option.any_some, decide_eq_true_eq, hdistance]
    refine or_congr_right (and_congr ?_ (or_congr_right ?_))
    · omega
    · omega
  rw [usable, visited, List.mem_filter, List.mem_filter, List.mem_filter,
    List.mem_flatMap, List.mem_flatMap]
  constructor
  · rintro ⟨⟨i, hi, hp⟩, husable⟩
    obtain ⟨hlt, hcond⟩ := (mem_visitOrder_iff hhead).mp hi
    obtain ⟨_, hstate⟩ := mem_getD_bucket.mp hp
    exact ⟨⟨⟨i, List.mem_range.mpr hlt, hp⟩, husable⟩,
      (hvisited hstate).mpr hcond⟩
  · rintro ⟨⟨⟨i, hi, hp⟩, husable⟩, hvis⟩
    obtain ⟨hlt, hstate⟩ := mem_getD_bucket.mp hp
    exact ⟨⟨i, (mem_visitOrder_iff hhead).mpr ⟨hlt, (hvisited hstate).mp hvis⟩,
      hp⟩, husable⟩

theorem nearestNodeEntries_eq (h : Filed ctx own t) (target : NodeID) :
    t.nearestNodeEntries ctx target = some (((byNumber (t.distanceTo ctx target)
      s_bits ((t.visited ctx target).filter t.isAlive)).filter fun p =>
        t.entries[p]?.any fun e =>
          e.endpoint.isSet && e.endpoint.isAllowed ctx.allowLocal).take
            s_bucketSize) := by
  rw [nearestNodeEntries]
  dsimp only
  rw [mapM_bucket t fun i hi => lt_of_mem_visitOrder (tail_lt _) hi]
  refine congrArg (fun found => some ((List.filter _ found).take _)) ?_
  refine List.flatMap_congr fun d _ => ?_
  rw [← List.flatMap_def]
  refine List.filter_congr fun p hp => ?_
  obtain ⟨i, -, hbucket⟩ := List.mem_flatMap.mp (List.mem_of_mem_filter hp)
  obtain ⟨hi, hstate⟩ := mem_getD_bucket.mp hbucket
  obtain ⟨e, he, -⟩ := h.exists_entry hstate
  rw [distanceTo, he, Option.any_some]

end Filed

/-- The entries that are returned are the nearest of all usable ones exactly if
for each of those in a bucket that is not visited there are as many as can be
returned, in the buckets that are, that are no farther from the target. -/
theorem nearestNodeEntries_iff (ctx : NodeContext) (own : NodeID) (t : NodeTable)
    (h : Filed ctx own t) (target : NodeID) :
    ∃ ret, t.nearestNodeEntries ctx target = some ret ∧
      (Nearest (t.distanceTo ctx target) s_bucketSize (t.usable ctx) ret ↔
        ∀ p ∈ t.usable ctx, t.isVisited ctx target p = false →
          s_bucketSize ≤ ((t.usable ctx).filter fun q =>
            t.isVisited ctx target q && decide (t.distanceTo ctx target q ≤
              t.distanceTo ctx target p)).length) := by
  refine ⟨_, h.nearestNodeEntries_eq target, ?_⟩
  have hdistance : ∀ p, t.distanceTo ctx target p < s_bits := by
    intro p
    rw [distanceTo]
    split
    · decide
    · exact distance_lt _ _ _
  refine nearest_take_iff (t.isVisited ctx target) h.nodup_usable ?_
    ((pairwise_byNumber _ _ _).filter _)
  have hsorted := (perm_byNumber ((h.nodup_visited target).filter t.isAlive)
    fun p _ => hdistance p).filter fun p => t.entries[p]?.any fun e =>
      e.endpoint.isSet && e.endpoint.isAllowed ctx.allowLocal
  refine hsorted.trans ?_
  have husable : (fun p => (t.entries[p]?.any fun e =>
      e.endpoint.isSet && e.endpoint.isAllowed ctx.allowLocal) && t.isAlive p) =
        t.isUsable ctx := by
    funext p
    exact Bool.and_comm _ _
  rw [List.filter_filter, husable]
  exact h.perm_visited target

/-- A node is added that is at the distance 1. -/
def firstBucket : List (Moment × NodeTableEvent) :=
  [(⟨1, 0⟩, .addNode ⟨RLP.alignRight 64 [2],
    ⟨.v4 (RLP.alignRight 4 [8, 8, 8, 8]), 30303, 30303⟩, .optional⟩ .known)]

theorem exists_firstBucket :
    ∃ t, run lastBytes (create ⟨RLP.alignRight 64 [1], {}, .optional⟩ true none
        ⟨0, 0⟩) firstBucket = some t ∧
      Filed lastBytes (RLP.alignRight 64 [1]) t := by
  refine (Filed.create ⟨RLP.alignRight 64 [1], {}, .optional⟩ true none).exists_run
    fun m event x hmem hx _ => ?_
  obtain ⟨-, rfl⟩ := Prod.mk.inj (List.mem_singleton.mp hmem)
  have hx' : RLP.alignRight 64 [2] = x := hx
  rw [← hx']
  exact ⟨1, by decide, by decide +kernel⟩

/-- For the own id as the target, all buckets are visited. -/
theorem nearestNodeEntries_iff_own :
    ∃ t, Filed lastBytes (RLP.alignRight 64 [1]) t ∧
      ∃ ret, t.nearestNodeEntries lastBytes (RLP.alignRight 64 [1]) = some ret ∧
        (Nearest (t.distanceTo lastBytes (RLP.alignRight 64 [1])) s_bucketSize
            (t.usable lastBytes) ret ↔
          ∀ p ∈ t.usable lastBytes,
            t.isVisited lastBytes (RLP.alignRight 64 [1]) p = false →
            s_bucketSize ≤ ((t.usable lastBytes).filter fun q =>
              t.isVisited lastBytes (RLP.alignRight 64 [1]) q && decide
                (t.distanceTo lastBytes (RLP.alignRight 64 [1]) q ≤
                  t.distanceTo lastBytes (RLP.alignRight 64 [1]) p)).length) := by
  obtain ⟨t, -, h⟩ := exists_firstBucket
  exact ⟨t, h, nearestNodeEntries_iff lastBytes _ t h (RLP.alignRight 64 [1])⟩

/-- The node in the first bucket is not found for a target at the distance 2. -/
theorem not_nearest :
    ∃ t, Filed lastBytes (RLP.alignRight 64 [1]) t ∧ t.usable lastBytes = [0] ∧
      t.nearestNodeEntries lastBytes (RLP.alignRight 64 [4]) = some [] ∧
      ¬ Nearest (t.distanceTo lastBytes (RLP.alignRight 64 [4])) s_bucketSize
        (t.usable lastBytes) [] := by
  obtain ⟨t, hrun, h⟩ := exists_firstBucket
  have hfound : (run lastBytes (create ⟨RLP.alignRight 64 [1], {}, .optional⟩ true
      none ⟨0, 0⟩) firstBucket).map (fun t => (t.usable lastBytes,
        t.nearestNodeEntries lastBytes (RLP.alignRight 64 [4]))) =
          some ([0], some []) := by
    decide +kernel
  rw [hrun, Option.map_some, Option.some.injEq, Prod.mk.injEq] at hfound
  obtain ⟨husable, hnone⟩ := hfound
  refine ⟨t, h, husable, hnone, fun hnearest => ?_⟩
  have hlength := hnearest.length
  rw [husable] at hlength
  exact absurd hlength (by decide)

end NodeTable

end Web3Core
