/-
What a handler of node events is called with.  Events of a node that follow
each other are one call; after an event of another node the next one is a call
of its own.
-/
import Web3Core.NodeTable

namespace Web3Core

section Destutter

variable {α : Type} [DecidableEq α]

theorem mem_destutter'_iff {a x : α} {l : List α} :
    x ∈ l.destutter' (· ≠ ·) a ↔ x ∈ a :: l := by
  induction l generalizing a with
  | nil => rfl
  | cons b l ih =>
      by_cases hab : a = b
      · subst hab
        rw [List.destutter'_cons_neg _ (not_not.mpr rfl), ih]
        simp
      · rw [List.destutter'_cons_pos _ hab, List.mem_cons, ih, List.mem_cons,
          List.mem_cons, List.mem_cons]

/-- No element comes again behind another one. -/
def Contiguous (l : List α) : Prop :=
  ∀ x y, x ≠ y → ¬ [x, y, x].Sublist l

omit [DecidableEq α] in
theorem contiguous_cons_iff {a : α} {l : List α} :
    Contiguous (a :: l) ↔
      Contiguous l ∧ ∀ y, a ≠ y → ¬ [y, a].Sublist l := by
  constructor
  · intro h
    exact ⟨fun x y hne hsub => h x y hne (hsub.cons a),
      fun y hne hsub => h a y hne (hsub.cons_cons a)⟩
  · rintro ⟨hrest, hhead⟩ x y hne hsub
    rcases List.cons_sublist_cons'.mp hsub with hskip | ⟨rfl, hback⟩
    · exact hrest x y hne hskip
    · exact hhead y hne hback

theorem nodup_destutter'_iff {a : α} {l : List α} :
    (l.destutter' (· ≠ ·) a).Nodup ↔ Contiguous (a :: l) := by
  induction l generalizing a with
  | nil =>
      rw [contiguous_cons_iff]
      simp [Contiguous]
  | cons b l ih =>
      rw [contiguous_cons_iff]
      by_cases hab : a = b
      · subst hab
        rw [List.destutter'_cons_neg _ (not_not.mpr rfl), ih]
        refine (and_iff_left_of_imp fun h y hne hsub => ?_).symm
        rcases List.cons_sublist_cons'.mp hsub with hskip | ⟨heq, -⟩
        · exact (contiguous_cons_iff.mp h).2 y hne hskip
        · exact hne heq.symm
      · rw [List.destutter'_cons_pos _ hab, List.nodup_cons, ih, and_comm,
          mem_destutter'_iff]
        refine and_congr_right fun _ => ?_
        constructor
        · intro hnot y hne hsub
          exact hnot (hsub.subset (by simp))
        · intro hall hmem
          have hback : a ∈ l := (List.mem_cons.mp hmem).resolve_left hab
          exact hall b hab ((List.singleton_sublist.mpr hback).cons_cons b)

theorem mem_destutter_iff {x : α} {l : List α} :
    x ∈ l.destutter (· ≠ ·) ↔ x ∈ l := by
  cases l with
  | nil => rfl
  | cons a l => exact mem_destutter'_iff

theorem nodup_destutter_iff {l : List α} :
    (l.destutter (· ≠ ·)).Nodup ↔ Contiguous l := by
  cases l with
  | nil => simp [Contiguous]
  | cons a l => exact nodup_destutter'_iff

end Destutter

namespace NodeTableEventHandler

/-- The events are appended one after the other. -/
def appendEvents (h : NodeTableEventHandler)
    (events : List (NodeID × NodeTableEventType)) : NodeTableEventHandler :=
  events.foldl (fun h e => h.appendEvent e.1 e.2) h

/-- The last event of a node. -/
def lastEvent (events : List (NodeID × NodeTableEventType)) (n : NodeID) :
    Option NodeTableEventType :=
  (events.reverse.find? fun e => e.1 == n).map (·.2)

/-- The next `processEvents` calls `processEvent` once for each node that there
are events of, with the last one of them, and leaves nothing behind. -/
def Coalesces (h : NodeTableEventHandler)
    (events : List (NodeID × NodeTableEventType)) : Prop :=
  (∀ n, h.processEvents.1.filter (fun e => e.1 == n) =
      ((lastEvent events n).map fun e => (n, e)).toList) ∧
    h.processEvents.2 = {}

variable {events : List (NodeID × NodeTableEventType)} {n : NodeID}

theorem appendEvents_eq (events : List (NodeID × NodeTableEventType)) :
    appendEvents {} events = ⟨events.map (·.1), lastEvent events⟩ := by
  induction events using List.reverseRecOn with
  | nil => rfl
  | append_singleton events e ih =>
      have hlast : appendEvents {} (events ++ [e]) =
          (appendEvents {} events).appendEvent e.1 e.2 := List.foldl_append
      rw [hlast, ih, appendEvent, List.map_append, List.map_singleton]
      congr 1
      funext n
      rw [Function.update_apply]
      simp only [lastEvent]
      rw [List.reverse_append, List.reverse_singleton, List.singleton_append, List.find?_cons]
      by_cases hn : n = e.1
      · simp [hn]
      · have hne : (e.1 == n) = false := by simpa using Ne.symm hn
        rw [if_neg hn, hne]

theorem lastEvent_eq_none_iff :
    lastEvent events n = none ↔ n ∉ events.map (·.1) := by
  rw [lastEvent, Option.map_eq_none_iff, List.find?_eq_none, List.mem_map,
    not_exists]
  simp only [List.mem_reverse, beq_iff_eq, not_and]

/-- The calls for a node are one for each time its events begin again. -/
theorem filter_processEvents (events : List (NodeID × NodeTableEventType))
    (n : NodeID) :
    (appendEvents {} events).processEvents.1.filter (fun e => e.1 == n) =
      List.replicate (((events.map (·.1)).destutter (· ≠ ·)).count n)
        (n, (lastEvent events n).getD .nodeEntryAdded) := by
  have hcalls : (appendEvents {} events).processEvents.1 =
      ((events.map (·.1)).destutter (· ≠ ·)).map fun n =>
        (n, (lastEvent events n).getD .nodeEntryAdded) := by
    rw [appendEvents_eq, processEvents]
    dsimp only
    split
    · next hnone => rw [hnone]; rfl
    · rfl
  rw [hcalls, List.filter_map, List.eq_replicate_iff, List.length_map,
    List.count_eq_length_filter]
  refine ⟨rfl, fun c hc => ?_⟩
  obtain ⟨x, hx, rfl⟩ := List.mem_map.mp hc
  have hxn : x = n := by simpa using (List.mem_filter.mp hx).2
  rw [hxn]

theorem processEvents_empty (events : List (NodeID × NodeTableEventType)) :
    (appendEvents {} events).processEvents.2 = {} := by
  rw [appendEvents_eq, processEvents]
  dsimp only
  split
  · next hnone =>
      rw [List.map_eq_nil_iff.mp hnone]
      rfl
  · rfl

/-- There is one call for each node exactly if no node has an event again after
one of another node. -/
theorem coalesces_iff (events : List (NodeID × NodeTableEventType)) :
    (appendEvents {} events).Coalesces events ↔
      Contiguous (events.map (·.1)) := by
  rw [Coalesces, and_iff_left (processEvents_empty events),
    ← nodup_destutter_iff]
  constructor
  · intro hall
    rw [List.nodup_iff_count_le_one]
    intro n
    have hlength := congrArg List.length (hall n)
    rw [filter_processEvents, List.length_replicate] at hlength
    rw [hlength]
    exact Option.length_toList_le
  · intro hnodup n
    rw [filter_processEvents]
    cases hlast : lastEvent events n with
    | none =>
        have hnot : n ∉ (events.map (·.1)).destutter (· ≠ ·) :=
          mem_destutter_iff.not.mpr (lastEvent_eq_none_iff.mp hlast)
        rw [List.count_eq_zero.mpr hnot]
        rfl
    | some e =>
        have hmem : n ∈ (events.map (·.1)).destutter (· ≠ ·) := by
          rw [mem_destutter_iff]
          by_contra hnot
          rw [lastEvent_eq_none_iff.mpr hnot] at hlast
          cases hlast
        rw [List.count_eq_one_of_mem hnodup hmem]
        rfl

/-- Between two events of a node there is one of another. -/
theorem not_coalesces :
    let a : NodeID := RLP.alignRight 64 [1]
    let b : NodeID := RLP.alignRight 64 [2]
    let events := [(a, .nodeEntryAdded), (b, .nodeEntryAdded),
      (a, NodeTableEventType.nodeEntryDropped)]
    ¬ (appendEvents {} events).Coalesces events := by
  intro a b events h
  have hcalls := h.1 a
  revert hcalls
  decide +kernel

end NodeTableEventHandler

end Web3Core
