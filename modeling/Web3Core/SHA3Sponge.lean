/-
`hash` of `SHA3.cpp` is the Keccak sponge: the loop over the input absorbs its
full blocks, the delimiter and the last bit are added to the state before the
rest of the input is, which makes one more block, and the output is read off the
state with a permutation behind every full block of it.
-/
import Web3Core.SHA3Permutation

namespace Web3Core

namespace SHA3

variable {a b out : Bytes} {rate : Nat}

theorem length_keccakf (state : Bytes) : (keccakf state).length = 200 := by
  rw [keccakf_permutes, Keccak.permute, Keccak.bytesOf]
  simp [Keccak.Lanes.toList]

section Add

theorem length_add (h : b.length ≤ a.length) : (Keccak.add a b).length = a.length := by
  rw [Keccak.add, List.length_append, List.length_zipWith, List.length_drop]
  omega

theorem getD_add_of_lt {j : Nat} (hb : j < b.length) (ha : b.length ≤ a.length) :
    (Keccak.add a b).getD j 0 = a.getD j 0 ^^^ b.getD j 0 := by
  have hzip : j < (List.zipWith (· ^^^ ·) a b).length := by
    rw [List.length_zipWith]
    omega
  rw [Keccak.add, List.getD_append _ _ _ _ hzip, List.getD_eq_getElem _ _ hzip,
    List.getElem_zipWith, List.getD_eq_getElem _ _ (by omega),
    List.getD_eq_getElem _ _ hb]

theorem getD_add_of_le {j : Nat} (hb : b.length ≤ j) (ha : b.length ≤ a.length) :
    (Keccak.add a b).getD j 0 = a.getD j 0 := by
  have hzip : (List.zipWith (· ^^^ ·) a b).length = b.length := by
    rw [List.length_zipWith]
    omega
  rw [Keccak.add, List.getD_append_right _ _ _ _ (by omega), hzip, getD_drop,
    Nat.add_sub_cancel' hb]

/-- The loop of `xorin`. -/
theorem xorin_written {len : Nat} (h : len ≤ a.length) (src : Bytes) :
    Written id (fun i x => x ^^^ src.getD i 0) 0 a.length (List.range len) a
      (xorin a src len) := by
  refine foldl_written rfl (fun _ _ _ _ => rfl) ?_ ?_
  · intro i hi
    exact Nat.lt_of_lt_of_le (List.mem_range.1 hi) h
  · rw [List.map_id]
    exact List.nodup_range

theorem xorin_eq {len : Nat} (ha : len ≤ a.length) (hb : len ≤ b.length) :
    xorin a b len = Keccak.add a (b.take len) := by
  have h := xorin_written ha b
  have htake : (b.take len).length = len := List.length_take_of_le hb
  apply ext_getD (d := 0)
  · rw [h.length_eq, length_add (by omega)]
  · intro j _
    rcases Nat.lt_or_ge j len with hj | hj
    · rw [getD_add_of_lt (by omega) (by omega), getD_take_of_lt hj]
      exact h.written j (List.mem_range.2 hj)
    · rw [getD_add_of_le (by omega) (by omega)]
      apply h.kept
      intro i hi heq
      have hlt := List.mem_range.1 hi
      have heq : i = j := heq
      omega

/-- The loop of `setout`. -/
theorem setout_eq {len : Nat} (ha : len ≤ a.length) (hout : len ≤ out.length) :
    setout a out len = a.take len ++ out.drop len := by
  have h : Written id (fun i _ => a.getD i 0) 0 out.length (List.range len) out
      (setout a out len) := by
    refine foldl_written rfl (fun _ _ _ _ => rfl) ?_ ?_
    · intro i hi
      exact Nat.lt_of_lt_of_le (List.mem_range.1 hi) hout
    · rw [List.map_id]
      exact List.nodup_range
  have htake : (a.take len).length = len := List.length_take_of_le ha
  apply ext_getD (d := 0)
  · rw [h.length_eq, List.length_append, htake, List.length_drop]
    omega
  · intro j _
    rcases Nat.lt_or_ge j len with hj | hj
    · rw [List.getD_append _ _ _ _ (by omega), getD_take_of_lt hj]
      exact h.written j (List.mem_range.2 hj)
    · rw [List.getD_append_right _ _ _ _ (by omega), htake, getD_drop,
        Nat.add_sub_cancel' hj]
      apply h.kept
      intro i hi heq
      have hlt := List.mem_range.1 hi
      have heq : i = j := heq
      omega

end Add

section Absorb

theorem length_absorb (s b : Bytes) : (Keccak.absorb keccakf s b).length = 200 :=
  length_keccakf _

/-- The loop absorbs the full blocks. -/
theorem absorbLoop_eq (h : 0 < rate) (hrate : rate ≤ 200) (input : Bytes)
    (ha : a.length = 200) :
    absorbLoop h a input = takeWhole (Keccak.absorb keccakf) rate a input := by
  fun_induction absorbLoop h a input with
  | case1 a input hle ih =>
      rw [ih (length_keccakf _), xorin_eq (by omega) hle,
        takeWhole_of_le h hle]
      rfl
  | case2 a input hlt => rw [takeWhole_of_lt (by omega)]

theorem length_takeWhole_absorb (h : 0 < rate) (input : Bytes)
    (ha : a.length = 200) :
    (takeWhole (Keccak.absorb keccakf) rate a input).1.length = 200 := by
  refine blocks_induction (Keccak.absorb keccakf) h
    (P := fun a input => a.length = 200 →
      (takeWhole (Keccak.absorb keccakf) rate a input).1.length = 200) ?_ ?_ a input ha
  · intro a input hlt ha
    rwa [takeWhole_of_lt hlt]
  · intro a b input hb ih _
    rw [takeWhole_block h hb]
    exact ih (length_absorb _ _)

variable {domain : Byte} {m : Bytes}

/-- What is left of the message, padded to one block. -/
def lastBlock (rate : Nat) (domain : Byte) (rest : Bytes) : Bytes :=
  let p := rest ++ domain :: List.replicate (rate - (rest.length + 1)) 0
  p.set (rate - 1) (p.getD (rate - 1) 0 ^^^ 0x80)

theorem length_lastBlock {rest : Bytes} (hrest : rest.length < rate) :
    (lastBlock rate domain rest).length = rate := by
  simp only [lastBlock, List.length_set, List.length_append, List.length_cons,
    List.length_replicate]
  omega

theorem closed_rest {rest : Bytes} (hrest : rest.length < rate) :
    closed rate domain 0 [] rest =
      rest ++ domain :: List.replicate (rate - (rest.length + 1)) 0 := by
  have hzeros : (rate - (rest.length + 1) % rate) % rate =
      rate - (rest.length + 1) := by
    rcases Nat.lt_or_eq_of_le (Nat.succ_le_of_lt hrest) with hlt | heq
    · rw [Nat.mod_eq_of_lt hlt, Nat.mod_eq_of_lt (by omega)]
    · rw [show rest.length + 1 = rate from heq, Nat.mod_self, Nat.sub_zero,
        Nat.mod_self, Nat.sub_self]
  rw [closed, List.length_nil, Nat.add_zero, hzeros, List.append_nil]

theorem padded_rest {rest : Bytes} (hrest : rest.length < rate) :
    Keccak.padded rate domain rest = lastBlock rate domain rest := by
  have hlength : (rest ++ domain :: List.replicate (rate - (rest.length + 1))
      (0 : Byte)).length = rate := by
    simp only [List.length_append, List.length_cons, List.length_replicate]
    omega
  rw [Keccak.padded, closed_rest hrest, lastBlock]
  simp only [hlength]

/-- A block in front of a message stays in front of it. -/
theorem padded_block {b : Bytes} (hb : b.length = rate) (m : Bytes) :
    Keccak.padded rate domain (b ++ m) = b ++ Keccak.padded rate domain m := by
  have hpos : 0 < (closed rate domain 0 [] m).length := by
    rw [closed, List.length_append, List.length_cons]
    omega
  rw [Keccak.padded, Keccak.padded, closed_block hb]
  simp only [List.length_append]
  rw [List.set_append_right _ _ (by omega), List.getD_append_right _ _ _ _ (by omega),
    show b.length + (closed rate domain 0 [] m).length - 1 - b.length =
      (closed rate domain 0 [] m).length - 1 by omega]

theorem takeWhole_padded (h : 0 < rate) (s m : Bytes) :
    takeWhole (Keccak.absorb keccakf) rate s (Keccak.padded rate domain m) =
      (Keccak.absorb keccakf (takeWhole (Keccak.absorb keccakf) rate s m).1
        (lastBlock rate domain (takeWhole (Keccak.absorb keccakf) rate s m).2), []) := by
  refine blocks_induction (Keccak.absorb keccakf) h ?_ ?_ s m
  · intro s m hlt
    rw [takeWhole_of_lt hlt, padded_rest hlt, takeWhole_eq h (length_lastBlock hlt)]
  · intro s b m hb ih
    rw [padded_block hb, takeWhole_block h hb, takeWhole_block h hb, ih]

/-- The delimiter, the last bit and the rest of the input are added one by
one. -/
theorem xorin_rest {rest : Bytes} (ha : rate ≤ a.length)
    (hrest : rest.length < rate) :
    xorin (((a.set rest.length (a.getD rest.length 0 ^^^ domain)).set (rate - 1)
      ((a.set rest.length (a.getD rest.length 0 ^^^ domain)).getD (rate - 1) 0 ^^^
        0x80))) rest rest.length = Keccak.add a (lastBlock rate domain rest) := by
  obtain ⟨marked, hmarked⟩ : ∃ x, x = a.set rest.length
      (a.getD rest.length 0 ^^^ domain) := ⟨_, rfl⟩
  obtain ⟨p, hp⟩ : ∃ x, x = rest ++ domain ::
      List.replicate (rate - (rest.length + 1)) (0 : Byte) := ⟨_, rfl⟩
  have hplength : p.length = rate := by
    rw [hp, List.length_append, List.length_cons, List.length_replicate]
    omega
  have hmlength : marked.length = a.length := by rw [hmarked, List.length_set]
  have hblock : lastBlock rate domain rest =
      p.set (rate - 1) (p.getD (rate - 1) 0 ^^^ 0x80) := by rw [lastBlock, ← hp]
  have hlast : (lastBlock rate domain rest).length = rate := length_lastBlock hrest
  -- at the places behind the rest, the delimiter alone is in the block
  have hadded (j : Nat) (hj : rest.length ≤ j) (hlt : j < rate) :
      marked.getD j 0 = a.getD j 0 ^^^ p.getD j 0 := by
    rcases Nat.lt_or_eq_of_le hj with hgt | rfl
    · rw [hmarked, getD_set_ne (by omega), hp,
        List.getD_append_right _ _ _ _ (by omega),
        show j - rest.length = j - rest.length - 1 + 1 by omega,
        List.getD_cons_succ, List.getD_replicate _ (by omega), UInt8.xor_zero]
    · rw [hmarked, getD_set_self (by omega), hp,
        List.getD_append_right _ _ _ _ (le_refl _), Nat.sub_self,
        List.getD_cons_zero]
  rw [← hmarked, xorin_eq (by rw [List.length_set]; omega) (le_refl _),
    List.take_length]
  apply ext_getD (d := 0)
  · rw [length_add (by rw [List.length_set]; omega), List.length_set, hmlength,
      length_add (by omega)]
  · intro j _
    rcases Nat.lt_or_ge j rest.length with hj | hj
    · rw [getD_add_of_lt hj (by rw [List.length_set]; omega),
        getD_add_of_lt (by omega) (by omega), getD_set_ne (by omega), hmarked,
        getD_set_ne (by omega), hblock, getD_set_ne (by omega), hp,
        List.getD_append _ _ _ _ hj]
    · rw [getD_add_of_le hj (by rw [List.length_set]; omega)]
      rcases Nat.lt_or_ge j rate with hlt | hge
      · rw [getD_add_of_lt (by omega) (by omega), hblock]
        by_cases heq : rate - 1 = j
        · subst heq
          rw [getD_set_self (by omega), getD_set_self (by omega),
            hadded _ hj hlt, UInt8.xor_assoc]
        · rw [getD_set_ne heq, getD_set_ne heq, hadded j hj hlt]
      · rw [getD_add_of_le (by omega) (by omega), getD_set_ne (by omega), hmarked,
          getD_set_ne (by omega)]

end Absorb

section Squeeze

theorem squeeze_of_le (f : Bytes → Bytes) (h : 0 < rate) {s : Bytes} {size : Nat}
    (hs : rate ≤ s.length) (hle : rate ≤ size) :
    Keccak.squeeze f rate s size =
      s.take rate ++ Keccak.squeeze f rate (f s) (size - rate) := by
  have hfront : (s.take rate).length = rate := List.length_take_of_le hs
  rw [Keccak.squeeze, Keccak.squeeze, Nat.div_eq_sub_div h hle,
    List.range_succ_eq_map, List.flatMap_cons, Function.iterate_zero_apply,
    List.take_append, hfront,
    List.take_of_length_le (by rw [hfront]; exact hle), List.flatMap_map]
  rfl

theorem squeeze_of_lt (f : Bytes → Bytes) {s : Bytes} {size : Nat}
    (hlt : size < rate) : Keccak.squeeze f rate s size = s.take size := by
  rw [Keccak.squeeze, Nat.div_eq_of_lt hlt]
  simp only [Nat.zero_add, List.range_one, List.flatMap_cons, List.flatMap_nil,
    List.append_nil, Function.iterate_zero, id_eq, List.take_take]
  rw [Nat.min_eq_left (by omega)]

/-- The loop reads the output off the states. -/
theorem squeezeLoop_eq (h : 0 < rate) (hrate : rate ≤ 200) (ha : a.length = 200)
    (out : Bytes) :
    squeezeLoop h a out = Keccak.squeeze keccakf rate a out.length := by
  fun_induction squeezeLoop h a out with
  | case1 a out hle ih =>
      rw [ih (length_keccakf _), List.length_drop,
        squeeze_of_le _ h (by omega) hle, setout_eq (by omega) hle,
        List.take_left' (List.length_take_of_le (by omega))]
  | case2 a out hlt =>
      rw [squeeze_of_lt _ (by omega), setout_eq (by omega) (le_refl _),
        List.drop_length, List.append_nil]

end Squeeze

/-- `hash` refuses null pointers and rates that are no rates; else the output is
that of the sponge. -/
theorem hash_sponge (out : Option Bytes) (input : BytesConstRef) {rate : Nat}
    (h : 0 < rate) (delim : Byte) :
    hash out input h delim =
      if (input.data = none ∧ input.count ≠ 0) ∨ 200 ≤ rate then none
      else out.map fun out => Keccak.sponge Keccak.permute rate delim
        input.toBytes out.length := by
  have hf : Keccak.permute = keccakf := (funext keccakf_permutes).symm
  cases out with
  | none => simp [hash]
  | some out =>
      by_cases hrefused : (input.data = none ∧ input.count ≠ 0) ∨ 200 ≤ rate
      · rw [if_pos hrefused, hash, if_pos]
        simpa [plen, Option.isNone_iff_eq_none] using hrefused
      · have hlt : rate < 200 := by omega
        have hzero : (List.replicate plen (0 : Byte)).length = 200 :=
          List.length_replicate
        have hstate := length_takeWhole_absorb h input.toBytes hzero
        have hrest := length_takeWhole_lt (f := Keccak.absorb keccakf) h
          (List.replicate plen 0) input.toBytes
        rw [if_neg hrefused, hash, if_neg (by
          simpa [plen, Option.isNone_iff_eq_none] using hrefused), Option.map_some]
        simp only [absorbLoop_eq h hlt.le _ hzero]
        rw [xorin_rest (by omega) hrest, squeezeLoop_eq h hlt.le (length_keccakf _),
          Keccak.sponge, hf, takeWhole_padded h, plen, Keccak.absorb]

theorem hash_sponge_shake :
    shake128 (some [0, 0]) (.ofBytes [1, 2, 3]) =
      some (Keccak.sponge Keccak.permute 168 0x1f [1, 2, 3] 2) :=
  (hash_sponge (some [0, 0]) (.ofBytes [1, 2, 3])
    (show 0 < 200 - 128 / 4 by decide) 0x1f).trans (if_neg (by decide))

/-- `sha3` writes an output of 32 bytes and no other. -/
theorem sha3Into_sponge (m output : Bytes) :
    sha3Into (.ofBytes m) output =
      if output.length = 32 then
        (true, Keccak.sponge Keccak.permute 136 0x01 m 32)
      else (false, output) := by
  have hbytes : (BytesConstRef.ofBytes m).toBytes = m := by
    simp [BytesConstRef.ofBytes, BytesConstRef.toBytes]
  rw [sha3Into]
  by_cases hsize : output.length = 32
  · have hfits : ¬(some output).any (fun out => out.length > 256 / 8) = true := by
      rw [Option.any_some, hsize]
      decide
    have hhash := hash_sponge (some output) (.ofBytes m)
      (show 0 < 200 - 256 / 4 by decide) 0x01
    have haccepted : ¬(((BytesConstRef.ofBytes m).data = none ∧
        (BytesConstRef.ofBytes m).count ≠ 0) ∨ 200 ≤ 200 - 256 / 4) := by
      simp [BytesConstRef.ofBytes]
    rw [if_neg haccepted, hbytes, Option.map_some, hsize] at hhash
    rw [if_neg (not_not.2 hsize), if_pos hsize, sha3_256, sha3Of, if_neg hfits,
      hhash]
    rfl
  · rw [if_pos hsize, if_neg hsize]

end SHA3

end Web3Core
