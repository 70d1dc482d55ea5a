/-
`Base64.h`: byte strings in characters of six bits each, and hashes in digits
of base 36.  A string is the byte string of its characters.
-/
import Web3Core.FixedHashImage
import Web3Core.Hex

namespace Web3Core

/-- `base64_chars`. -/
def base64Chars : Bytes :=
  ascii "ABCDEFGHIJKLMNOPQRSTUVWXYZabcdefghijklmnopqrstuvwxyz0123456789+/"

/-- `is_base64`. -/
def isBase64 (c : Byte) : Bool :=
  (0x30 ≤ c && c ≤ 0x39) || (0x41 ≤ c && c ≤ 0x5a) ||
    (0x61 ≤ c && c ≤ 0x7a) || c = 0x2b || c = 0x2f

/-- `find_base64_char_index`. -/
def findBase64CharIndex (c : Byte) : Byte :=
  let upper := 0x5a - 0x41
  let lower := 0x7a - 0x61 + 1 + upper
  let digit := 0x39 - 0x30 + 1 + lower
  if 0x41 ≤ c ∧ c ≤ 0x5a then c - 0x41
  else if 0x61 ≤ c ∧ c ≤ 0x7a then c - 0x61 + 1 + upper
  else if 0x30 ≤ c ∧ c ≤ 0x39 then c - 0x30 + 1 + lower
  else if c = 0x2b then 1 + digit
  else if c = 0x2f then 1 + (1 + digit)
  else 1 + (1 + (1 + digit))

/-- `char_array_4` of three bytes. -/
def charArray4 (a b c : Byte) : Bytes :=
  [(a &&& 0xfc) >>> 2, ((a &&& 0x03) <<< 4) + ((b &&& 0xf0) >>> 4),
    ((b &&& 0x0f) <<< 2) + ((c &&& 0xc0) >>> 6), c &&& 0x3f]

/-- `char_array_3` of four indices. -/
def charArray3 (a b c d : Byte) : Bytes :=
  [(a <<< 2) + ((b &&& 0x30) >>> 4), ((b &&& 0xf) <<< 4) + ((c &&& 0x3c) >>> 2),
    ((c &&& 0x3) <<< 6) + d]

/-- The character of an index. -/
def base64Char (x : Byte) : Byte := base64Chars.getD x.toNat 0

/-- The loop of `toBase64`: the bytes that wait in `char_array_3` behind it, and
the output. -/
def toBase64Loop : Bytes → Bytes → Bytes → Bytes × Bytes
  | waiting, ret, [] => (waiting, ret)
  | waiting, ret, x :: buf =>
      let w := waiting ++ [x]
      if w.length = 3 then
        toBase64Loop [] (ret ++ (charArray4 (w.getD 0 0) (w.getD 1 0)
          (w.getD 2 0)).map base64Char) buf
      else toBase64Loop w ret buf

/-- What `toBase64` does with the bytes that are left. -/
def toBase64End (r : Bytes × Bytes) : Bytes :=
  let (w, ret) := r
  if w.length ≠ 0 then
    ret ++ ((charArray4 (w.getD 0 0) (w.getD 1 0) (w.getD 2 0)).take
      (w.length + 1)).map base64Char ++ List.replicate (3 - w.length) 0x3d
  else ret

/-- `toBase64`. -/
def toBase64 (b : Bytes) : Bytes := toBase64End (toBase64Loop [] [] b)

/-- The loop of `fromBase64`: the characters that wait in `char_array_4` behind
it, and the output.  The position `p` is an `int`. -/
def fromBase64Loop :
    Int → Bytes → Bytes → Bytes → Except Exception (Bytes × Bytes)
  | _, waiting, ret, [] => .ok (waiting, ret)
  | p, waiting, ret, c :: s =>
      if c ≠ 0x3d ∧ isBase64 c then do
        let p ← addInt p 1
        let w := waiting ++ [c]
        if w.length = 4 then
          let i := w.map findBase64CharIndex
          fromBase64Loop p [] (ret ++ charArray3 (i.getD 0 0) (i.getD 1 0)
            (i.getD 2 0) (i.getD 3 0)) s
        else fromBase64Loop p w ret s
      else .ok (waiting, ret)

/-- What `fromBase64` does with the characters that are left. -/
def fromBase64End (r : Bytes × Bytes) : Bytes :=
  let (w, ret) := r
  if w.length ≠ 0 then
    let i := (w ++ List.replicate (4 - w.length) 0).map findBase64CharIndex
    ret ++ (charArray3 (i.getD 0 0) (i.getD 1 0) (i.getD 2 0) (i.getD 3 0)).take
      (w.length - 1)
  else ret

/-- `fromBase64`. -/
def fromBase64 (s : Bytes) : Except Exception Bytes :=
  (fromBase64Loop 0 [] [] s).map fromBase64End

/-! Bytes and the indices of characters. -/

/-- The indices that a byte string is written with. -/
def sextets : Bytes → Bytes
  | a :: b :: c :: rest => charArray4 a b c ++ sextets rest
  | [a, b] => (charArray4 a b 0).take 3
  | [a] => (charArray4 a 0 0).take 2
  | [] => []

/-- The bytes that are read from indices; behind the last ones the source has
the index that it finds for a character zero. -/
def octets : Bytes → Bytes
  | a :: b :: c :: d :: rest => charArray3 a b c d ++ octets rest
  | [a, b, c] => (charArray3 a b c (findBase64CharIndex 0)).take 2
  | [a, b] =>
      (charArray3 a b (findBase64CharIndex 0) (findBase64CharIndex 0)).take 1
  | [_] => []
  | [] => []

section Sextets

/-- A field of `w` bits is taken out of a byte. -/
theorem toNat_field (x m k : Byte) {w : Nat}
    (hm : m.toNat >>> (k.toNat % 8) = 2 ^ w - 1) :
    ((x &&& m) >>> k).toNat = x.toNat / 2 ^ (k.toNat % 8) % 2 ^ w := by
  rw [UInt8.toNat_shiftRight, UInt8.toNat_and, Nat.shiftRight_and_distrib, hm,
    Nat.and_two_pow_sub_one_eq_mod, Nat.shiftRight_eq_div_pow]

/-- The last `w` bits of a byte are moved up. -/
theorem toNat_moved (x m k : Byte) {w : Nat} (hm : m.toNat = 2 ^ w - 1) :
    ((x &&& m) <<< k).toNat = x.toNat % 2 ^ w * 2 ^ (k.toNat % 8) % 2 ^ 8 := by
  rw [UInt8.toNat_shiftLeft, UInt8.toNat_and, hm, Nat.and_two_pow_sub_one_eq_mod,
    Nat.shiftLeft_eq]

theorem toNat_charArray4 (a b c : Byte) : (charArray4 a b c).map UInt8.toNat =
    [a.toNat / 4, a.toNat % 4 * 16 + b.toNat / 16, b.toNat % 16 * 4 + c.toNat / 64,
      c.toNat % 64] := by
  have ha := a.toNat_lt
  have hb := b.toNat_lt
  have hc := c.toNat_lt
  have h0 : ((a &&& 0xfc) >>> 2).toNat = a.toNat / 4 % 64 :=
    toNat_field a 0xfc 2 (w := 6) rfl
  have h1 : ((a &&& 0x03) <<< 4).toNat = a.toNat % 4 * 16 % 256 :=
    toNat_moved a 0x03 4 (w := 2) rfl
  have h2 : ((b &&& 0xf0) >>> 4).toNat = b.toNat / 16 % 16 :=
    toNat_field b 0xf0 4 (w := 4) rfl
  have h3 : ((b &&& 0x0f) <<< 2).toNat = b.toNat % 16 * 4 % 256 :=
    toNat_moved b 0x0f 2 (w := 4) rfl
  have h4 : ((c &&& 0xc0) >>> 6).toNat = c.toNat / 64 % 4 :=
    toNat_field c 0xc0 6 (w := 2) rfl
  have h5 : (c &&& 0x3f).toNat = c.toNat % 64 :=
    (UInt8.toNat_and c 0x3f).trans (Nat.and_two_pow_sub_one_eq_mod c.toNat 6)
  simp only [charArray4, List.map_cons, List.map_nil, UInt8.toNat_add, h0, h1, h2, h3,
    h4, h5, List.cons.injEq, and_true]
  omega

theorem toNat_charArray3 (a b c d : Byte) : (charArray3 a b c d).map UInt8.toNat =
    [a.toNat % 64 * 4 + b.toNat / 16 % 4, b.toNat % 16 * 16 + c.toNat / 4 % 16,
      (c.toNat % 4 * 64 + d.toNat) % 256] := by
  have h0 : (a <<< 2).toNat = a.toNat * 4 % 256 := by
    rw [UInt8.toNat_shiftLeft, Nat.shiftLeft_eq]
    rfl
  have h1 : ((b &&& 0x30) >>> 4).toNat = b.toNat / 16 % 4 :=
    toNat_field b 0x30 4 (w := 2) rfl
  have h2 : ((b &&& 0xf) <<< 4).toNat = b.toNat % 16 * 16 % 256 :=
    toNat_moved b 0xf 4 (w := 4) rfl
  have h3 : ((c &&& 0x3c) >>> 2).toNat = c.toNat / 4 % 16 :=
    toNat_field c 0x3c 2 (w := 4) rfl
  have h4 : ((c &&& 0x3) <<< 6).toNat = c.toNat % 4 * 64 % 256 :=
    toNat_moved c 0x3 6 (w := 2) rfl
  simp only [charArray3, List.map_cons, List.map_nil, UInt8.toNat_add, h0, h1, h2, h3,
    h4, List.cons.injEq, and_true]
  omega

/-- Four bytes with the values that three bytes are split into give these three
again. -/
theorem charArray3_eq {a b c w x y z : Byte}
    (h : [w, x, y, z].map UInt8.toNat = (charArray4 a b c).map UInt8.toNat) :
    charArray3 w x y z = [a, b, c] := by
  have ha := a.toNat_lt
  have hb := b.toNat_lt
  have hc := c.toNat_lt
  rw [toNat_charArray4] at h
  simp only [List.map_cons, List.map_nil, List.cons.injEq, and_true] at h
  obtain ⟨hw, hx, hy, hz⟩ := h
  apply List.map_injective_iff.2 fun _ _ h => UInt8.toNat_inj.1 h
  rw [toNat_charArray3, hw, hx, hy, hz]
  simp only [List.map_cons, List.map_nil, List.cons.injEq, and_true]
  omega

theorem octets_sextets (b : Bytes) : octets (sextets b) = b := by
  induction b using sextets.induct with
  | case1 a b c rest ih =>
      show charArray3 _ _ _ _ ++ octets (sextets rest) = _
      rw [charArray3_eq (a := a) (b := b) (c := c) rfl, ih]
      rfl
  | case2 a b =>
      show (charArray3 _ _ _ (0 &&& 0x3f)).take 2 = _
      rw [charArray3_eq (a := a) (b := b) (c := 0) rfl]
      rfl
  | case3 a =>
      show (charArray3 _ _
        ((((0 : Byte) &&& 0x0f) <<< 2) + (((0 : Byte) &&& 0xc0) >>> 6))
        (0 &&& 0x3f)).take 1 = _
      rw [charArray3_eq (a := a) (b := 0) (c := 0) rfl]
      rfl
  | case4 => rfl

theorem length_sextets (b : Bytes) : (sextets b).length = (4 * b.length + 2) / 3 := by
  induction b using sextets.induct with
  | case1 a b c rest ih =>
      rw [sextets, List.length_append, ih]
      simp only [charArray4, List.length_cons, List.length_nil]
      omega
  | case2 a b => simp [sextets, charArray4]
  | case3 a => simp [sextets, charArray4]
  | case4 => rfl

theorem charArray4_lt (a b c : Byte) : ∀ x ∈ charArray4 a b c, x.toNat < 64 := by
  have ha := a.toNat_lt
  have hb := b.toNat_lt
  have hc := c.toNat_lt
  intro x hx
  have hmem := List.mem_map_of_mem (f := UInt8.toNat) hx
  rw [toNat_charArray4] at hmem
  simp only [List.mem_cons, List.not_mem_nil, or_false] at hmem
  omega

theorem sextets_lt (b : Bytes) : ∀ x ∈ sextets b, x.toNat < 64 := by
  induction b using sextets.induct with
  | case1 a b c rest ih =>
      intro x hx
      rcases List.mem_append.1 hx with hx | hx
      · exact charArray4_lt a b c x hx
      · exact ih x hx
  | case2 a b => exact fun x hx => charArray4_lt a b 0 x (List.mem_of_mem_take hx)
  | case3 a => exact fun x hx => charArray4_lt a 0 0 x (List.mem_of_mem_take hx)
  | case4 =>
      intro x hx
      cases hx

/-- An index is found again from its character. -/
theorem base64Char_index {x : Byte} (hx : x.toNat < 64) :
    isBase64 (base64Char x) = true ∧ findBase64CharIndex (base64Char x) = x := by
  have h : ∀ n < 64, isBase64 (base64Char (UInt8.ofNat n)) = true ∧
      findBase64CharIndex (base64Char (UInt8.ofNat n)) = UInt8.ofNat n := by
    decide +kernel
  have := h x.toNat hx
  rwa [UInt8.ofNat_toNat] at this

end Sextets

section Loops

/-- Every byte string is written by its indices, filled up to groups of four. -/
theorem toBase64End_loop (b ret : Bytes) :
    toBase64End (toBase64Loop [] ret b) = ret ++ (sextets b).map base64Char ++
      List.replicate ((3 - b.length % 3) % 3) 0x3d := by
  induction b using sextets.induct generalizing ret with
  | case1 a b c rest ih =>
      have hfill : (3 - (a :: b :: c :: rest).length % 3) % 3 =
          (3 - rest.length % 3) % 3 := by
        simp only [List.length_cons]
        omega
      show toBase64End
        (toBase64Loop [] (ret ++ (charArray4 a b c).map base64Char) rest) = _
      rw [ih, hfill, sextets, List.map_append, ← List.append_assoc ret]
  | case2 a b => rfl
  | case3 a => rfl
  | case4 =>
      show ret = ret ++ [] ++ []
      rw [List.append_nil, List.append_nil]

theorem toBase64_eq (b : Bytes) : toBase64 b =
    (sextets b).map base64Char ++ List.replicate ((3 - b.length % 3) % 3) 0x3d :=
  toBase64End_loop b []

variable {p : Int} {w ret s t : Bytes} {c : Byte}

theorem fromBase64Loop_cons (hc : isBase64 c = true) (hp : 0 ≤ p)
    (hlt : p + 1 < 2 ^ 31) (hw : w.length + 1 ≠ 4) :
    fromBase64Loop p w ret (c :: s) = fromBase64Loop (p + 1) (w ++ [c]) ret s := by
  have hne : c ≠ 0x3d := by
    rintro rfl
    cases hc
  have hadd : addInt p 1 = .ok (p + 1) := if_pos ⟨by omega, hlt⟩
  rw [fromBase64Loop, if_pos ⟨hne, hc⟩, hadd]
  exact if_neg (by rw [List.length_append]; exact hw)

/-- Characters that do not make a group wait. -/
theorem fromBase64Loop_waiting (ht : ∀ c ∈ t, isBase64 c = true) (hp : 0 ≤ p)
    (hlt : p + t.length < 2 ^ 31) (hw : w.length + t.length < 4) :
    fromBase64Loop p w ret (t ++ s) =
      fromBase64Loop (p + t.length) (w ++ t) ret s := by
  induction t generalizing p w with
  | nil =>
      rw [List.nil_append, List.append_nil, List.length_nil, Nat.cast_zero, add_zero]
  | cons c t ih =>
      rw [List.length_cons] at hlt hw
      have hlength : (w ++ [c]).length + t.length < 4 := by
        rw [List.length_append, List.length_singleton]
        omega
      have hnext := ih (fun c' hc' => ht c' (List.mem_cons_of_mem c hc')) (p := p + 1)
        (by omega) (by push_cast at hlt; omega) hlength
      rw [List.cons_append, fromBase64Loop_cons (ht c List.mem_cons_self) hp
        (by push_cast at hlt; omega) (by omega), hnext, List.append_assoc,
        List.singleton_append, List.length_cons]
      push_cast
      rw [add_assoc, add_comm (1 : Int)]

theorem fromBase64Loop_group {a b c d : Byte}
    (ht : ∀ e ∈ [a, b, c, d], isBase64 e = true) (hp : 0 ≤ p)
    (hlt : p + 4 < 2 ^ 31) :
    fromBase64Loop p [] ret (a :: b :: c :: d :: s) = fromBase64Loop (p + 4) []
      (ret ++ charArray3 (findBase64CharIndex a) (findBase64CharIndex b)
        (findBase64CharIndex c) (findBase64CharIndex d)) s := by
  have hthree : fromBase64Loop p [] ret ([a, b, c] ++ d :: s) =
      fromBase64Loop (p + 3) [a, b, c] ret (d :: s) :=
    fromBase64Loop_waiting (t := [a, b, c])
      (fun e he => ht e (List.mem_append_left [d] he)) hp (by show p + 3 < _; omega)
      (by simp)
  have hd : isBase64 d = true := ht d (by simp)
  have hne : d ≠ 0x3d := by
    rintro rfl
    cases hd
  have hadd : addInt (p + 3) 1 = .ok (p + 4) := by
    rw [addInt, if_pos ⟨by omega, by omega⟩, add_assoc]
    rfl
  refine hthree.trans ?_
  rw [fromBase64Loop, if_pos ⟨hne, hd⟩, hadd]
  rfl

/-- Groups of four characters are read, and then those that are left. -/
theorem fromBase64End_loop
    (hs : ∀ p w ret, fromBase64Loop p w ret s = .ok (w, ret))
    (ht : ∀ c ∈ t, isBase64 c = true) (hp : 0 ≤ p) (hlt : p + t.length < 2 ^ 31) :
    (fromBase64Loop p [] ret (t ++ s)).map fromBase64End =
      .ok (ret ++ octets (t.map findBase64CharIndex)) := by
  induction t using octets.induct generalizing p ret with
  | case1 a b c d rest ih =>
      simp only [List.length_cons] at hlt
      push_cast at hlt
      have hgroup : ∀ e ∈ [a, b, c, d], isBase64 e = true :=
        fun e he => ht e (List.mem_append_left rest he)
      have hrest : ∀ e ∈ rest, isBase64 e = true :=
        fun e he => ht e (List.mem_append_right [a, b, c, d] he)
      show (fromBase64Loop p [] ret (a :: b :: c :: d :: (rest ++ s))).map _ = _
      rw [fromBase64Loop_group hgroup hp (by omega),
        ih hrest (p := p + 4) (by omega) (by omega), List.append_assoc]
      rfl
  | case2 a b c =>
      rw [fromBase64Loop_waiting ht hp hlt (by simp), hs]
      rfl
  | case3 a b =>
      rw [fromBase64Loop_waiting ht hp hlt (by simp), hs]
      rfl
  | case4 a =>
      rw [fromBase64Loop_waiting ht hp hlt (by simp), hs]
      rfl
  | case5 =>
      rw [List.nil_append, hs]
      exact congrArg _ (List.append_nil ret).symm

/-- The loop ends at the first other character. -/
theorem fromBase64Loop_dropWhile (s : Bytes) (p : Int) (w ret : Bytes) :
    fromBase64Loop p w ret (s.dropWhile isBase64) = .ok (w, ret) := by
  induction s with
  | nil => rfl
  | cons c s ih =>
      rw [List.dropWhile_cons]
      split
      · exact ih
      · next hc =>
        rw [fromBase64Loop]
        exact if_neg fun h => hc h.2

/-- The position overflows behind as many characters as an `int` counts. -/
theorem fromBase64Loop_overflow (hp : 0 ≤ p) (hlt : p < 2 ^ 31)
    (hle : 2 ^ 31 ≤ p + (s.takeWhile isBase64).length) :
    fromBase64Loop p w ret s = .error .intOverflow := by
  induction s generalizing p w ret with
  | nil => exact absurd hle (by simpa using hlt)
  | cons c s ih =>
      rw [List.takeWhile_cons] at hle
      by_cases hc : isBase64 c = true
      · rw [if_pos hc, List.length_cons] at hle
        have hne : c ≠ 0x3d := by
          rintro rfl
          cases hc
        rw [fromBase64Loop, if_pos ⟨hne, hc⟩]
        by_cases hnext : p + 1 < 2 ^ 31
        · have hadd : addInt p 1 = .ok (p + 1) := if_pos ⟨by omega, hnext⟩
          have hle' : 2 ^ 31 ≤ p + 1 + (s.takeWhile isBase64).length := by
            push_cast at hle
            omega
          rw [hadd]
          show (if _ then _ else _) = _
          split
          · exact ih (by omega) hnext hle'
          · exact ih (by omega) hnext hle'
        · have hadd : addInt p 1 = .error .intOverflow := if_neg fun h => hnext h.2
          rw [hadd]
          rfl
      · rw [if_neg hc] at hle
        exact absurd hle (by simpa using hlt)

/-- `fromBase64` reads the characters up to the first other one. -/
theorem fromBase64_eq (s : Bytes) : fromBase64 s =
    if (s.takeWhile isBase64).length < 2 ^ 31 then
      .ok (octets ((s.takeWhile isBase64).map findBase64CharIndex))
    else .error .intOverflow := by
  unfold fromBase64
  split
  · next hlt =>
    have hloop : (fromBase64Loop 0 [] []
        (s.takeWhile isBase64 ++ s.dropWhile isBase64)).map fromBase64End =
          .ok (octets ((s.takeWhile isBase64).map findBase64CharIndex)) :=
      fromBase64End_loop (fromBase64Loop_dropWhile s)
        (List.all_eq_true.1 List.all_takeWhile) le_rfl
        (by rw [zero_add]; exact_mod_cast hlt)
    rw [List.takeWhile_append_dropWhile] at hloop
    exact hloop
  · next hlt =>
    rw [fromBase64Loop_overflow le_rfl (by decide)
      (by rw [zero_add]; exact_mod_cast Nat.le_of_not_lt hlt)]
    rfl

/-- What was written is read back, exactly if an `int` counts its characters. -/
theorem fromBase64_toBase64 (b : Bytes) :
    fromBase64 (toBase64 b) = .ok b ↔ (4 * b.length + 2) / 3 < 2 ^ 31 := by
  have hchars : ∀ c ∈ (sextets b).map base64Char, isBase64 c = true := by
    intro c hc
    obtain ⟨x, hx, rfl⟩ := List.mem_map.1 hc
    exact (base64Char_index (sextets_lt b x hx)).1
  have hwhile : (toBase64 b).takeWhile isBase64 = (sextets b).map base64Char := by
    rw [toBase64_eq, List.takeWhile_append_of_pos hchars]
    cases (3 - b.length % 3) % 3 with
    | zero => exact List.append_nil _
    | succ n => exact List.append_nil _
  have hindices : ((sextets b).map base64Char).map findBase64CharIndex = sextets b := by
    rw [List.map_map]
    exact (List.map_congr_left fun x hx =>
      (base64Char_index (sextets_lt b x hx)).2).trans (List.map_id _)
  rw [fromBase64_eq, hwhile, hindices, octets_sextets, List.length_map, length_sextets]
  split
  · next hlt => exact ⟨fun _ => hlt, fun _ => rfl⟩
  · next hlt => exact ⟨fun h => (by cases h), fun h => absurd h hlt⟩

example : toBase64 (ascii "light w") = ascii "bGlnaHQgdw==" := by decide

end Loops

/-! Digits of base 36. -/

/-- `c_alphabet[r]`. -/
def base36Char (r : Nat) : Byte :=
  (ascii "0123456789ABCDEFGHIJKLMNOPQRSTUVWXYZ").getD r 0

/-- The loop of `toBase36`. -/
def toBase36Loop (a : Nat) (ret : Bytes) : Bytes :=
  if 0 < a then toBase36Loop (a / 36) (base36Char (a - a / 36 * 36) :: ret) else ret
termination_by a

/-- What `fromBase36` takes a character for; a `char` is signed. -/
def base36Value (c : Byte) : Int :=
  let v := c.toInt8.toInt
  if v < 0x41 then v - 0x30 else v - 0x41 + 10

/-- A round of the loop of `fromBase36`, with a type of so many bits. -/
def fromBase36Step (k ret : Nat) (c : Byte) : Nat :=
  ((ret * 36 + base36Value c : Int) % 2 ^ k).toNat

namespace FixedHash

variable {N : Nat}

/-- `toBase36`. -/
def toBase36 (h : FixedHash N) : Bytes := toBase36Loop (toArith h) []

/-- `fromBase36`, which computes with the arithmetic type. -/
def fromBase36 (N : Nat) (s : Bytes) : FixedHash N :=
  ofArith N (s.foldl (fromBase36Step (arithBits N)) 0)

theorem base36Value_char {r : Nat} (hr : r < 36) : base36Value (base36Char r) = r := by
  have h : ∀ r < 36, base36Value (base36Char r) = r := by decide +kernel
  exact h r hr

/-- The digits that are in front are read as the number they were made of. -/
theorem foldl_toBase36Loop {k a : Nat} (ha : a < 2 ^ k) (ret : Bytes) :
    (toBase36Loop a ret).foldl (fromBase36Step k) 0 =
      ret.foldl (fromBase36Step k) a := by
  induction a using Nat.strong_induction_on generalizing ret with
  | h a ih =>
      rw [toBase36Loop]
      split
      · next hpos =>
        have hlt : a / 36 < a := Nat.div_lt_self hpos (by decide)
        have hsum : ((a / 36 : Nat) * 36 + (a - a / 36 * 36 : Nat) : Int) = a := by
          omega
        have hstep : fromBase36Step k (a / 36) (base36Char (a - a / 36 * 36)) = a := by
          rw [fromBase36Step, base36Value_char (by omega), hsum,
            Int.emod_eq_of_lt (Int.natCast_nonneg a) (by exact_mod_cast ha)]
          rfl
        rw [ih (a / 36) hlt (hlt.trans ha), List.foldl_cons, hstep]
      · next hzero =>
        rw [Nat.eq_zero_of_not_pos hzero]

/-- The digits of a hash are read as the hash. -/
theorem fromBase36_toBase36 (hN : N < 2 ^ 29) (h : FixedHash N) :
    fromBase36 N (toBase36 h) = h := by
  have hlt : toArith h < 2 ^ arithBits N := by
    rw [toArith_eq hN, arithBits_eq hN, pow_bytes]
    exact value_lt h
  apply value_inj
  rw [fromBase36, toBase36, foldl_toBase36Loop hlt, List.foldl_nil, value_ofArith,
    toArith_eq hN]
  exact Nat.mod_eq_of_lt (value_lt h)

theorem fromBase36_toBase36_word :
    fromBase36 2 (toBase36 (ofArith 2 4660)) = ofArith 2 4660 :=
  fromBase36_toBase36 (by decide) (ofArith 2 4660)

end FixedHash

end Web3Core
