/-
The reputations of nodes.  A node is known by its id and its client version,
and has a reputation of its own in every part of the protocol; the part without
a name stands for all of them.
-/
import Mathlib.Data.List.AList
import Web3Core.NodeTable

namespace Web3Core

/-- `SubReputation`. -/
structure SubReputation where
  isRude : Bool := false
  data : Bytes := []
deriving DecidableEq

/-- What a session tells of its node: its id, and the client version. -/
abbrev NodeKey := NodeID × Bytes

/-- `m_nodes`, of every node the reputations by their parts. -/
structure ReputationManager where
  nodes : AList (fun _ : NodeKey => AList (fun _ : Bytes => SubReputation)) := ∅

/-- What is done with a manager. -/
inductive ReputationEvent where
  | noteRude (node : NodeKey) (sub : Bytes)
  | setData (node : NodeKey) (sub data : Bytes)
deriving DecidableEq

namespace ReputationManager

/-- `m_nodes[node].subs[sub]` is changed; what is missing is made. -/
def modify (m : ReputationManager) (node : NodeKey) (sub : Bytes)
    (f : SubReputation → SubReputation) : ReputationManager :=
  let subs := (m.nodes.lookup node).getD ∅
  ⟨m.nodes.insert node (subs.insert sub (f ((subs.lookup sub).getD {})))⟩

def noteRude (m : ReputationManager) (node : NodeKey) (sub : Bytes) :
    ReputationManager :=
  m.modify node sub fun r => { r with isRude := true }

/-- What `isRude` finds of a part by itself. -/
def isRudeIn (m : ReputationManager) (node : NodeKey) (sub : Bytes) : Bool :=
  match m.nodes.lookup node with
  | none => false
  | some subs =>
      match subs.lookup sub with
      | none => false
      | some r => r.isRude

/-- `isRude`, which calls itself for the part without a name. -/
def isRude (m : ReputationManager) (node : NodeKey) (sub : Bytes) : Bool :=
  if sub.isEmpty then m.isRudeIn node sub
  else m.isRudeIn node sub || m.isRudeIn node []

def setData (m : ReputationManager) (node : NodeKey) (sub data : Bytes) :
    ReputationManager :=
  m.modify node sub fun r => { r with data }

def data (m : ReputationManager) (node : NodeKey) (sub : Bytes) : Bytes :=
  match m.nodes.lookup node with
  | none => []
  | some subs =>
      match subs.lookup sub with
      | none => []
      | some r => r.data

def step (m : ReputationManager) : ReputationEvent → ReputationManager
  | .noteRude node sub => m.noteRude node sub
  | .setData node sub data => m.setData node sub data

def run (m : ReputationManager) (events : List ReputationEvent) :
    ReputationManager :=
  events.foldl step m

/-- The reputation of a node in a part. -/
def entry (m : ReputationManager) (node : NodeKey) (sub : Bytes) :
    SubReputation :=
  ((m.nodes.lookup node).bind (·.lookup sub)).getD {}

variable {m : ReputationManager} {node node' : NodeKey} {sub sub' : Bytes}

theorem isRudeIn_eq (m : ReputationManager) (node : NodeKey) (sub : Bytes) :
    m.isRudeIn node sub = (m.entry node sub).isRude := by
  unfold isRudeIn entry
  rcases m.nodes.lookup node with _ | subs
  · rfl
  · rcases hsub : subs.lookup sub with _ | r
    · simp [hsub]
    · simp [hsub]

theorem data_eq (m : ReputationManager) (node : NodeKey) (sub : Bytes) :
    m.data node sub = (m.entry node sub).data := by
  unfold data entry
  rcases m.nodes.lookup node with _ | subs
  · rfl
  · rcases hsub : subs.lookup sub with _ | r
    · simp [hsub]
    · simp [hsub]

/-- A node is rude in a part that it was noted for, or for all of them. -/
theorem isRude_iff (m : ReputationManager) (node : NodeKey) (sub : Bytes) :
    m.isRude node sub = true ↔
      (m.entry node sub).isRude = true ∨ (m.entry node []).isRude = true := by
  rw [isRude, isRudeIn_eq, isRudeIn_eq]
  split
  · next hempty =>
    rw [List.isEmpty_iff.1 hempty, or_self]
  · rw [Bool.or_eq_true]

/-- Of all reputations the one is changed. -/
theorem entry_modify (m : ReputationManager) (node node' : NodeKey)
    (sub sub' : Bytes) (f : SubReputation → SubReputation) :
    (m.modify node sub f).entry node' sub' =
      if node' = node ∧ sub' = sub then f (m.entry node sub)
      else m.entry node' sub' := by
  unfold modify entry
  dsimp only
  by_cases hnode : node' = node
  · subst hnode
    rw [AList.lookup_insert, Option.bind_some]
    rcases m.nodes.lookup node' with _ | subs
    · by_cases hsub : sub' = sub
      · subst hsub
        rw [AList.lookup_insert, if_pos ⟨rfl, rfl⟩]
        rfl
      · rw [AList.lookup_insert_ne hsub, if_neg fun h => hsub h.2]
        rfl
    · by_cases hsub : sub' = sub
      · subst hsub
        rw [AList.lookup_insert, if_pos ⟨rfl, rfl⟩]
        rfl
      · rw [AList.lookup_insert_ne hsub, if_neg fun h => hsub h.2]
        rfl
  · rw [AList.lookup_insert_ne hnode, if_neg fun h => hnode h.1]

end ReputationManager

namespace ReputationEvent

/-- What is stored for a node in a part. -/
def stored? (node : NodeKey) (sub : Bytes) : ReputationEvent → Option Bytes
  | .noteRude _ _ => none
  | .setData node' sub' data => if node = node' ∧ sub = sub' then some data else none

end ReputationEvent

namespace ReputationManager

section Runs

variable (m : ReputationManager) (node : NodeKey) (sub : Bytes)

theorem isRude_step (e : ReputationEvent) :
    ((m.step e).entry node sub).isRude = true ↔
      (m.entry node sub).isRude = true ∨ e = .noteRude node sub := by
  cases e with
  | noteRude node' sub' =>
      show ((m.modify _ _ _).entry node sub).isRude = true ↔ _
      rw [entry_modify, ReputationEvent.noteRude.injEq]
      split
      · next heq =>
        obtain ⟨rfl, rfl⟩ := heq
        exact iff_of_true rfl (.inr ⟨rfl, rfl⟩)
      · next hne =>
        exact (or_iff_left fun h => hne ⟨h.1.symm, h.2.symm⟩).symm
  | setData node' sub' data =>
      show ((m.modify _ _ _).entry node sub).isRude = true ↔ _
      rw [entry_modify]
      split
      · next heq =>
        obtain ⟨rfl, rfl⟩ := heq
        exact (or_iff_left fun h => by cases h).symm
      · exact (or_iff_left fun h => by cases h).symm

theorem data_step (e : ReputationEvent) :
    ((m.step e).entry node sub).data =
      (e.stored? node sub).getD (m.entry node sub).data := by
  cases e with
  | noteRude node' sub' =>
      show ((m.modify _ _ _).entry node sub).data = _
      rw [entry_modify]
      split
      · next heq =>
        obtain ⟨rfl, rfl⟩ := heq
        rfl
      · rfl
  | setData node' sub' data =>
      show ((m.modify _ _ _).entry node sub).data = _
      rw [entry_modify, ReputationEvent.stored?]
      split
      · rfl
      · rfl

theorem isRude_run (events : List ReputationEvent) :
    ((m.run events).entry node sub).isRude = true ↔
      (m.entry node sub).isRude = true ∨ .noteRude node sub ∈ events := by
  induction events generalizing m with
  | nil => exact (or_iff_left List.not_mem_nil).symm
  | cons e events ih =>
      show (((m.step e).run events).entry node sub).isRude = true ↔ _
      rw [ih, isRude_step, List.mem_cons, or_assoc, eq_comm (a := e)]

theorem data_run (events : List ReputationEvent) :
    ((m.run events).entry node sub).data =
      ((events.filterMap (·.stored? node sub)).getLast?).getD
        (m.entry node sub).data := by
  induction events generalizing m with
  | nil => rfl
  | cons e events ih =>
      show (((m.step e).run events).entry node sub).data = _
      rw [ih, data_step, List.filterMap_cons]
      rcases e.stored? node sub with _ | d
      · rfl
      · rcases hlast : (events.filterMap (·.stored? node sub)).getLast? with _ | d'
        · rw [List.getLast?_eq_none_iff.1 hlast]
          rfl
        · rw [List.getLast?_cons, hlast]
          rfl

end Runs

/-- In every run a node is rude in a part exactly if it was noted for that part
or for all of them, and the data of a part are what was stored there last; no
other node and no other part has a say in it. -/
theorem reputations_kept (events : List ReputationEvent) (node : NodeKey)
    (sub : Bytes) :
    ((({} : ReputationManager).run events).isRude node sub = true ↔
      .noteRude node sub ∈ events ∨ .noteRude node [] ∈ events) ∧
    (({} : ReputationManager).run events).data node sub =
      ((events.filterMap (·.stored? node sub)).getLast?).getD [] := by
  have hempty : ∀ sub, ({} : ReputationManager).entry node sub = {} := fun _ => rfl
  constructor
  · rw [isRude_iff, isRude_run, isRude_run, hempty, hempty]
    simp
  · rw [data_eq, data_run, hempty]

end ReputationManager

end Web3Core
