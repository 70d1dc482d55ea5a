/-
Whatever a trie reads from its database, it inserts every string under the hash
of the string.
-/
import Web3Core.TrieDB

namespace Web3Core

open Program

namespace GenericTrieDB

/-- A string is only inserted under its hash. -/
def UnderHash (sha3 : Bytes → H256) : DBCommand → Prop
  | .insert h v => sha3 v = h
  | _ => True

variable (sha3 : Bytes → H256)

theorem issues_node (h : H256) : Issues (UnderHash sha3) (node h) :=
  ⟨trivial, fun _ => trivial⟩

theorem issues_dbExists (h : H256) : Issues (UnderHash sha3) (dbExists h) :=
  ⟨trivial, fun _ => trivial⟩

theorem issues_forceKillNode (h : H256) :
    Issues (UnderHash sha3) (forceKillNode h) :=
  ⟨trivial, fun _ => trivial⟩

theorem issues_forceInsertNode (v : Bytes) :
    Issues (UnderHash sha3) (forceInsertNode sha3 v) :=
  ⟨rfl, fun _ => trivial⟩

theorem issues_killNodeAt (d : RLP) (h : H256) :
    Issues (UnderHash sha3) (killNodeAt d h) :=
  issues_ite (issues_forceKillNode sha3 h) trivial

theorem issues_streamNode (s : RLPStream) (b : Bytes) :
    Issues (UnderHash sha3) (streamNode sha3 s b) :=
  issues_ite (issues_liftM _)
    (issues_bind (issues_forceInsertNode sha3 b) fun _ => issues_liftM _)

theorem issues_onlyIf (c : Bool) {p : DBProgram Unit}
    (hp : Issues (UnderHash sha3) p) :
    Issues (UnderHash sha3) (onlyIf c p) :=
  issues_ite hp trivial

theorem issues_setRootWith {init : DBProgram H256}
    (hinit : Issues (UnderHash sha3) init) (root : H256) :
    Issues (UnderHash sha3) (setRootWith sha3 init root) :=
  issues_bind
    (issues_ite
      (issues_bind (issues_dbExists sha3 root) fun _ =>
        issues_ite hinit trivial)
      trivial)
    fun root' => issues_bind (issues_node sha3 root') fun _ =>
      issues_ite trivial trivial

theorem issues_initLoop (fuel : Nat) :
    Issues (UnderHash sha3) (initLoop sha3 fuel) := by
  induction fuel with
  | zero => trivial
  | succ fuel ih =>
      exact issues_bind (issues_forceInsertNode sha3 rlpNull) fun h =>
        issues_bind (issues_setRootWith sha3 ih h) fun root =>
          issues_bind (issues_node sha3 root) fun _ =>
            issues_bind (issues_liftM _) fun _ => trivial

theorem issues_init : Issues (UnderHash sha3) (init sha3) :=
  issues_bind (issues_initLoop sha3 2) fun _ => trivial

theorem issues_setRoot (root : H256) :
    Issues (UnderHash sha3) (setRoot sha3 root) :=
  issues_bind (issues_setRootWith sha3 (issues_initLoop sha3 2) root) fun _ =>
    trivial

theorem issues_place (orig : RLP) (k : NibbleSlice) (s : Bytes) :
    Issues (UnderHash sha3) (place sha3 orig k s) := by
  refine issues_bind (issues_killNodeAt sha3 _ _) fun _ => issues_ite ?_ ?_
  · exact issues_bind (issues_liftM _) fun _ => issues_liftM _
  · refine issues_bind (issues_liftM _) fun _ =>
      issues_bind (issues_liftM _) fun _ =>
        issues_bind (issues_liftM _) fun _ => issues_ite ?_ ?_
    · exact issues_bind (issues_liftM _) fun _ => issues_liftM _
    · exact issues_bind (issues_liftM _) fun _ =>
        issues_bind (issues_liftM _) fun _ =>
          issues_bind (issues_liftM _) fun _ => issues_liftM _

theorem issues_cleve (orig : RLP) (s : Nat) :
    Issues (UnderHash sha3) (cleve sha3 orig s) := by
  unfold cleve killNode
  -- The proof follows the program, here and below.
  repeat' with_reducible first
    | exact issues_liftM _
    | exact issues_killNodeAt sha3 _ _
    | exact issues_streamNode sha3 _ _
    | refine issues_bind ?_ fun _ => ?_

theorem issues_branch (orig : RLP) :
    Issues (UnderHash sha3) (branch sha3 orig) := by
  unfold branch killNode
  repeat' with_reducible first
    | exact issues_liftM _
    | exact issues_killNodeAt sha3 _ _
    | exact issues_streamNode sha3 _ _
    | refine issues_bind ?_ fun _ => ?_
    | refine issues_ite ?_ ?_
    | refine issues_foldlM (fun _ _ => ?_) _ _

theorem issues_mergeAtAux
    {mergeAt : RLP → H256 → NibbleSlice → Bytes → Bool → DBProgram Bytes}
    (hmerge : ∀ r h k v inLine, Issues (UnderHash sha3) (mergeAt r h k v inLine))
    (out : RLPStream) (orig : RLP) (k : NibbleSlice) (v : Bytes) :
    Issues (UnderHash sha3) (mergeAtAux sha3 mergeAt out orig k v) := by
  unfold mergeAtAux
  repeat' with_reducible first
    | exact issues_liftM _
    | exact hmerge _ _ _ _ _
    | exact issues_node sha3 _
    | exact issues_streamNode sha3 _ _
    | refine issues_bind ?_ fun _ => ?_
    | refine issues_ite ?_ ?_

theorem issues_mergeAt (fuel : Nat) (orig : RLP) (h : H256) (k : NibbleSlice)
    (v : Bytes) (inLine : Bool) :
    Issues (UnderHash sha3) (mergeAt sha3 fuel orig h k v inLine) := by
  induction fuel generalizing orig h k v inLine with
  | zero => trivial
  | succ fuel ih =>
      unfold mergeAt
      repeat' with_reducible first
        | exact issues_liftM _
        | exact issues_place sha3 _ _ _
        | exact issues_cleve sha3 _ _
        | exact issues_branch sha3 _
        | exact ih _ _ _ _ _
        | exact issues_mergeAtAux sha3 ih _ _ _ _
        | exact issues_onlyIf sha3 _ (issues_killNodeAt sha3 _ _)
        | refine issues_bind ?_ fun _ => ?_
        | refine issues_ite ?_ ?_
        | refine issues_foldlM (fun _ _ => ?_) _ _

theorem issues_insert (g : GenericTrieDB) (key value : Bytes) :
    Issues (UnderHash sha3) (g.insert sha3 key value) := by
  unfold insert
  repeat' with_reducible first
    | exact issues_liftM _
    | exact issues_node sha3 _
    | exact issues_mergeAt sha3 _ _ _ _ _ _
    | exact issues_onlyIf sha3 _ (issues_forceKillNode sha3 _)
    | exact issues_forceInsertNode sha3 _
    | exact issues_pure _
    | refine issues_bind ?_ fun _ => ?_

theorem issues_isTwoItemNode (n : RLP) :
    Issues (UnderHash sha3) (isTwoItemNode n) := by
  unfold isTwoItemNode
  repeat' with_reducible first
    | exact issues_liftM _
    | exact issues_pure _
    | exact issues_node sha3 _
    | refine issues_bind ?_ fun _ => ?_
    | refine issues_ite ?_ ?_

theorem issues_merge (orig : RLP) (i : Nat) :
    Issues (UnderHash sha3) (merge orig i) := by
  unfold merge
  repeat' with_reducible first
    | exact issues_liftM _
    | refine issues_bind ?_ fun _ => ?_

theorem issues_graft (orig : RLP) :
    Issues (UnderHash sha3) (graft orig) := by
  unfold graft
  repeat' with_reducible first
    | exact issues_liftM _
    | exact issues_pure _
    | exact issues_node sha3 _
    | exact issues_forceKillNode sha3 _
    | refine issues_bind ?_ fun _ => ?_
    | refine issues_ite ?_ ?_

theorem issues_mergeUsed (orig : RLP) (used : Nat) :
    Issues (UnderHash sha3) (mergeUsed orig used) := by
  unfold mergeUsed
  repeat' with_reducible first
    | exact issues_liftM _
    | exact issues_isTwoItemNode sha3 _
    | exact issues_merge sha3 _ _
    | exact issues_graft sha3 _
    | refine issues_bind ?_ fun _ => ?_
    | refine issues_ite ?_ ?_

section Delete

variable {deleteAt : RLP → NibbleSlice → DBProgram Bytes}

theorem issues_deleteAtAux
    (hdelete : ∀ r k, Issues (UnderHash sha3) (deleteAt r k))
    (out : RLPStream) (orig : RLP) (k : NibbleSlice) :
    Issues (UnderHash sha3) (deleteAtAux sha3 deleteAt out orig k) := by
  unfold deleteAtAux
  repeat' with_reducible first
    | exact issues_liftM _
    | exact issues_pure _
    | exact hdelete _ _
    | exact issues_node sha3 _
    | exact issues_streamNode sha3 _ _
    | refine issues_bind ?_ fun _ => ?_
    | refine issues_ite ?_ ?_

theorem issues_deleteSlots
    (hdelete : ∀ r k, Issues (UnderHash sha3) (deleteAt r k)) (orig : RLP)
    (n : Nat) (k : NibbleSlice) (is : List Nat) (r : RLPStream) :
    Issues (UnderHash sha3) (deleteSlots sha3 deleteAt orig n k is r) := by
  induction is generalizing r with
  | nil => exact issues_pure _
  | cons i is ih =>
      refine issues_bind (issues_liftM _) fun c => issues_ite ?_ ?_
      · refine issues_bind (issues_deleteAtAux sha3 hdelete _ _ _) ?_
        rintro (_ | r)
        · exact issues_pure _
        · exact ih r
      · exact issues_bind (issues_liftM _) fun r => ih r

end Delete

theorem issues_deleteAt (fuel : Nat) (orig : RLP) (k : NibbleSlice) :
    Issues (UnderHash sha3) (deleteAt sha3 fuel orig k) := by
  induction fuel generalizing orig k with
  | zero => trivial
  | succ fuel ih =>
      unfold deleteAt killNode
      repeat' with_reducible first
        | exact issues_liftM _
        | exact issues_pure _
        | exact issues_killNodeAt sha3 _ _
        | exact issues_deleteAtAux sha3 ih _ _ _
        | exact issues_deleteSlots sha3 ih _ _ _ _ _
        | exact issues_isTwoItemNode sha3 _
        | exact issues_graft sha3 _
        | exact issues_mergeUsed sha3 _ _
        | refine issues_bind ?_ fun _ => ?_
        | refine issues_ite ?_ ?_
        | split

theorem issues_remove (g : GenericTrieDB) (key : Bytes) :
    Issues (UnderHash sha3) (g.remove sha3 key) := by
  unfold remove
  repeat' with_reducible first
    | exact issues_liftM _
    | exact issues_pure _
    | exact issues_node sha3 _
    | exact issues_deleteAt sha3 _ _ _
    | exact issues_onlyIf sha3 _ (issues_forceKillNode sha3 _)
    | exact issues_forceInsertNode sha3 _
    | refine issues_bind ?_ fun _ => ?_
    | refine issues_ite ?_ ?_

end GenericTrieDB

end Web3Core
