/-
Nibble words and the hex-prefix notation.  A byte string is a word of nibbles
of even length; the hex prefix packs a word of any length with a mark for
two-item nodes that are leaves, and can be undone.
-/
import Web3Core.Bytes

namespace Web3Core

abbrev Nibble := Fin 16

namespace Nibble

def toByte (n : Nibble) : Byte := UInt8.ofNat n.val

def high (x : Byte) : Nibble :=
  ⟨x.toNat / 16, by
    have := x.toNat_lt
    omega⟩

def low (x : Byte) : Nibble := ⟨x.toNat % 16, by omega⟩

/-- The byte of two nibbles. -/
def join (a b : Nibble) : Byte := UInt8.ofNat (a.val * 16 + b.val)

theorem toNat_join (a b : Nibble) : (join a b).toNat = a.val * 16 + b.val := by
  rw [join, UInt8.toNat_ofNat']
  omega

@[simp] theorem high_join (a b : Nibble) : high (join a b) = a := by
  apply Fin.ext
  simp only [high, toNat_join]
  omega

@[simp] theorem low_join (a b : Nibble) : low (join a b) = b := by
  apply Fin.ext
  simp only [low, toNat_join]
  omega

@[simp] theorem join_high_low (x : Byte) : join (high x) (low x) = x := by
  apply UInt8.toNat_inj.1
  rw [toNat_join]
  simp only [high, low]
  omega

theorem toNat_toByte (n : Nibble) : n.toByte.toNat = n.val := by
  rw [toByte, UInt8.toNat_ofNat']
  omega

theorem toByte_inj {m n : Nibble} : m.toByte = n.toByte ↔ m = n := by
  rw [← UInt8.toNat_inj, toNat_toByte, toNat_toByte, Fin.val_inj]

end Nibble

open Nibble (high low join)

/-- The nibbles of a byte string, high nibble first. -/
def nibbles : Bytes → List Nibble
  | [] => []
  | x :: b => high x :: low x :: nibbles b

@[simp] theorem length_nibbles (b : Bytes) :
    (nibbles b).length = b.length * 2 := by
  induction b with
  | nil => rfl
  | cons x b ih =>
      simp only [nibbles, List.length_cons, ih]
      omega

theorem nibbles_inj {b c : Bytes} : nibbles b = nibbles c ↔ b = c := by
  refine ⟨fun h => ?_, congrArg nibbles⟩
  induction b generalizing c with
  | nil =>
      cases c with
      | nil => rfl
      | cons y c => simp [nibbles] at h
  | cons x b ih =>
      cases c with
      | nil => simp [nibbles] at h
      | cons y c =>
          simp only [nibbles, List.cons.injEq] at h
          obtain ⟨hhigh, hlow, hrest⟩ := h
          rw [← Nibble.join_high_low x, ← Nibble.join_high_low y, hhigh, hlow,
            ih hrest]

theorem nibbles_append (b c : Bytes) :
    nibbles (b ++ c) = nibbles b ++ nibbles c := by
  induction b with
  | nil => rfl
  | cons x b ih => simp [nibbles, ih]

theorem nibbles_getElem? (b : Bytes) (i : Nat) :
    (nibbles b)[i]? =
      b[i / 2]?.map fun x => if i % 2 = 1 then low x else high x := by
  induction b generalizing i with
  | nil => simp [nibbles]
  | cons x b ih =>
      rcases i with _ | _ | i
      · simp [nibbles]
      · simp [nibbles]
      · have hdiv : (i + 2) / 2 = i / 2 + 1 := by omega
        have hmod : (i + 2) % 2 = i % 2 := by omega
        simp only [nibbles, List.getElem?_cons_succ, ih, hdiv, hmod]

theorem nibbles_prefix_iff {b c : Bytes} :
    nibbles b <+: nibbles c ↔ b <+: c := by
  constructor
  · intro h
    induction b generalizing c with
    | nil => exact List.nil_prefix
    | cons x b ih =>
        cases c with
        | nil => simp [nibbles] at h
        | cons y c =>
            simp only [nibbles, List.cons_prefix_cons] at h
            obtain ⟨hhigh, hlow, hrest⟩ := h
            rw [← Nibble.join_high_low x, ← Nibble.join_high_low y, hhigh, hlow]
            exact List.cons_prefix_cons.2 ⟨rfl, ih hrest⟩
  · rintro ⟨d, rfl⟩
    exact ⟨nibbles d, (nibbles_append b d).symm⟩

/-- A word of even length as a byte string. -/
def pack : List Nibble → Bytes
  | a :: b :: ns => join a b :: pack ns
  | _ => []

theorem nibbles_pack {ns : List Nibble} (heven : ns.length % 2 = 0) :
    nibbles (pack ns) = ns := by
  induction ns using pack.induct with
  | case1 a b ns ih =>
      have htail : ns.length % 2 = 0 := by
        simp only [List.length_cons] at heven
        omega
      simp [pack, nibbles, ih htail]
  | case2 ns hns =>
      rcases ns with _ | ⟨a, _ | ⟨b, ns⟩⟩
      · rfl
      · simp at heven
      · exact absurd rfl (hns a b ns)

theorem length_pack (ns : List Nibble) : (pack ns).length = ns.length / 2 := by
  induction ns using pack.induct with
  | case1 a b ns ih =>
      simp only [pack, List.length_cons, ih]
      omega
  | case2 ns hns =>
      rcases ns with _ | ⟨a, _ | ⟨b, ns⟩⟩
      · rfl
      · simp [pack]
      · exact absurd rfl (hns a b ns)

/-- The flags of the hex prefix: termination and oddness. -/
def hexPrefixFlags (leaf odd : Bool) : Nibble :=
  match leaf, odd with
  | false, false => 0
  | false, true => 1
  | true, false => 2
  | true, true => 3

/-- The hex-prefix notation of a word. -/
def hexPrefix (leaf : Bool) (ns : List Nibble) : Bytes :=
  if ns.length % 2 = 1 then
    match ns with
    | [] => []
    | n :: ns => join (hexPrefixFlags leaf true) n :: pack ns
  else join (hexPrefixFlags leaf false) 0 :: pack ns

theorem hexPrefix_odd (leaf : Bool) {n : Nibble} {ns : List Nibble}
    (heven : ns.length % 2 = 0) :
    hexPrefix leaf (n :: ns) = join (hexPrefixFlags leaf true) n :: pack ns := by
  rw [hexPrefix.eq_def, if_pos (by rw [List.length_cons]; omega)]

theorem hexPrefix_even (leaf : Bool) {ns : List Nibble}
    (heven : ns.length % 2 = 0) :
    hexPrefix leaf ns = join (hexPrefixFlags leaf false) 0 :: pack ns := by
  rw [hexPrefix.eq_def, if_neg (by omega)]

/-- Every notation is one of two shapes. -/
theorem hexPrefix_cases (leaf : Bool) (ns : List Nibble) :
    (∃ n ms, ns = n :: ms ∧ ms.length % 2 = 0 ∧
      hexPrefix leaf ns = join (hexPrefixFlags leaf true) n :: pack ms) ∨
    (ns.length % 2 = 0 ∧
      hexPrefix leaf ns = join (hexPrefixFlags leaf false) 0 :: pack ns) := by
  by_cases heven : ns.length % 2 = 0
  · exact Or.inr ⟨heven, hexPrefix_even leaf heven⟩
  · cases ns with
    | nil => exact absurd rfl heven
    | cons n ms =>
        have hms : ms.length % 2 = 0 := by
          rw [List.length_cons] at heven
          omega
        exact Or.inl ⟨n, ms, rfl, hms, hexPrefix_odd leaf hms⟩

theorem length_hexPrefix (leaf : Bool) (ns : List Nibble) :
    (hexPrefix leaf ns).length = ns.length / 2 + 1 := by
  rcases hexPrefix_cases leaf ns with ⟨n, ms, rfl, heven, h⟩ | ⟨heven, h⟩
  · rw [h, List.length_cons, length_pack, List.length_cons]
    omega
  · rw [h, List.length_cons, length_pack]

theorem hexPrefixFlags_inj {leaf leaf' odd odd' : Bool} :
    hexPrefixFlags leaf odd = hexPrefixFlags leaf' odd' →
      leaf = leaf' ∧ odd = odd' := by
  cases leaf <;> cases leaf' <;> cases odd <;> cases odd' <;> decide

/-- The notation determines the mark and the word. -/
theorem hexPrefix_inj {leaf leaf' : Bool} {ns ns' : List Nibble}
    (h : hexPrefix leaf ns = hexPrefix leaf' ns') : leaf = leaf' ∧ ns = ns' := by
  have hjoin : ∀ {a b a' b' : Nibble}, join a b = join a' b' →
      a = a' ∧ b = b' := by
    intro a b a' b' hab
    exact ⟨by rw [← Nibble.high_join a b, hab, Nibble.high_join],
      by rw [← Nibble.low_join a b, hab, Nibble.low_join]⟩
  have hpack : ∀ {ms ms' : List Nibble}, ms.length % 2 = 0 →
      ms'.length % 2 = 0 → pack ms = pack ms' → ms = ms' := by
    intro ms ms' hms hms' hp
    rw [← nibbles_pack hms, hp, nibbles_pack hms']
  rcases hexPrefix_cases leaf ns with ⟨n, ms, rfl, he, hp⟩ | ⟨he, hp⟩ <;>
    rcases hexPrefix_cases leaf' ns' with ⟨n', ms', rfl, he', hp'⟩ | ⟨he', hp'⟩ <;>
    rw [hp, hp', List.cons.injEq] at h <;>
    obtain ⟨hhead, htail⟩ := h <;>
    obtain ⟨hflags, hnib⟩ := hjoin hhead <;>
    obtain ⟨rfl, hodd⟩ := hexPrefixFlags_inj hflags
  · exact ⟨rfl, by rw [hnib, hpack he he' htail]⟩
  · cases hodd
  · cases hodd
  · exact ⟨rfl, hpack he he' htail⟩

end Web3Core
