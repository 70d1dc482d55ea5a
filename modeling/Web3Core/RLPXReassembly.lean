/-
What the reader holds of a packet that was split.  A packet is kept with the
number of bytes that it lacks of the size that its first frame announced.  A
frame that goes on with no packet and announces no size leaves a packet, too;
what it lacks is then the negative of its length.
-/
import Web3Core.RLPXDemux
import Web3Core.Runs

namespace Web3Core

/-- A part of a view is within the memory of the view. -/
theorem BytesConstRef.length_cropped_le (v : BytesConstRef) (start len : Nat) :
    (v.cropped start len).toBytes.length ≤ v.mem.length := by
  rw [cropped]
  split
  · exact Nat.zero_le _
  · split
    · simp only [toBytes, List.length_take, List.length_drop]
      omega
    · exact Nat.zero_le _

/-- A number that is read is of as many bytes as were asked for. -/
theorem RLP.toInt_lt {r : RLP} {size : Nat} {flags : Strictness} {n : Nat}
    (h : r.toInt size flags = .ok n) : n < 256 ^ size := by
  have hpos : 0 < 256 ^ size := Nat.pow_pos (by decide)
  simp only [RLP.toInt, bind, Except.bind] at h
  repeat' split at h
  all_goals cases h
  all_goals first | exact hpos | exact Nat.mod_lt _ hpos

namespace RLPXFrameInfo

/-- The total size is a number of 32 bits. -/
theorem totalLength_lt {header : Bytes} {info : RLPXFrameInfo}
    (h : ofHeader header = .ok info) : info.totalLength < 2 ^ 32 := by
  simp only [ofHeader, bind, Except.bind, pure, Except.pure] at h
  repeat' split at h
  all_goals cases h
  all_goals first
    | exact Nat.two_pow_pos 32
    | -- The size is the third number.
      rename_i htotal
      split at htotal
      · cases htotal
      · exact RLP.toInt_lt htotal

end RLPXFrameInfo

namespace RLPXFrameReader

/-- A frame that is empty, or larger than the packet it begins. -/
def dropped (info : RLPXFrameInfo) (frame : Bytes) : Bool :=
  frame.isEmpty || (info.multiFrame && info.totalLength != 0 &&
    decide (frame.length > info.totalLength))

/-- A frame without its padding and its tag. -/
def trimmed (info : RLPXFrameInfo) (frame : Bytes) : Bytes :=
  ((BytesConstRef.ofBytes frame).cropped 0
    (subSize frame.length (16 + info.padding))).toBytes

/-- The packet that a frame goes on with. -/
def continued (r : RLPXFrameReader) (info : RLPXFrameInfo) (buffer : Bytes) :
    Option (RLPXPacket × UInt32) :=
  (r.incomplete.lookup info.sequenceId).filter fun entry =>
    info.totalLength = 0 && decide (0 < buffer.length) &&
      decide (buffer.length ≤ entry.2.toNat)

/-- The packet of which a frame has the first part, unless it is whole, and the
number of bytes that it lacks. -/
def begun (r : RLPXFrameReader) (info : RLPXFrameInfo) (buffer : Bytes) :
    Option (RLPXPacket × UInt32) :=
  let type := nextRLP buffer
  let rest := buffer.drop type.length
  let p := RLPXPacket.ofBytes r.protocolType.toUInt8 type
  let p := if rest.isEmpty then p else (p.append rest).2
  let remaining := UInt32.ofNat
    (subSize (subSize info.totalLength type.length) rest.length)
  if type.isEmpty || p.isValid || remaining = 0 then none
  else some (p, remaining)

/-- What is held under the number of a frame after it. -/
def entryAfter (r : RLPXFrameReader) (info : RLPXFrameInfo) (buffer : Bytes) :
    Option (RLPXPacket × UInt32) :=
  match r.continued info buffer with
  | some (p, remaining) =>
      let remaining := remaining - UInt32.ofNat buffer.length
      if remaining = 0 then none else some ((p.append buffer).2, remaining)
  | none => r.begun info buffer

variable {r : RLPXFrameReader} {info : RLPXFrameInfo} {frame buffer : Bytes}

theorem accept_of_dropped (h : dropped info frame = true) :
    r.accept info frame = (.ok [], r) := by
  rw [accept]
  rw [dropped, Bool.or_eq_true] at h
  rcases h with hempty | hlarge
  · rw [if_pos hempty]
  · rw [hlarge]
    simp

/-- Packets that have no number leave what is held as it is. -/
theorem packets_single (hmulti : info.multiFrame = false) (fuel : Nat) :
    ∀ (buffer : Bytes) (ret : List RLPXPacket),
      (packets info fuel buffer ret r).2 = r := by
  induction fuel with
  | zero =>
      intro buffer ret
      rfl
  | succ fuel ih =>
      intro buffer ret
      rw [packets]
      simp only [hmulti, Bool.false_and, Bool.false_eq_true, ↓reduceIte]
      generalize (if (nextRLP (buffer.drop (nextRLP buffer).length)).isEmpty
        then RLPXPacket.ofBytes r.protocolType.toUInt8 (nextRLP buffer)
        else ((RLPXPacket.ofBytes r.protocolType.toUInt8
          (nextRLP buffer)).append _).2) = p
      split
      · rfl
      · split
        · rfl
        · split
          · exact ih _ _
          · rfl

theorem nextRLP_length_le (b : Bytes) : (nextRLP b).length ≤ b.length := by
  rw [nextRLP]
  split
  · rw [List.length_take]
    omega
  · simp

/-- What is put under a number that holds nothing. -/
theorem lookup_insertIncomplete {p : RLPXPacket} {remaining : UInt32} {id : Nat}
    (hnew : r.incomplete.lookup id = none) (id' : Nat) :
    (r.insertIncomplete id p remaining).incomplete.lookup id' =
      if id' = id then some (p, remaining) else r.incomplete.lookup id' := by
  rw [insertIncomplete, hnew]
  exact OrderedMap.lookup_insert _ _ _ _

/-- Taking a frame with a number apart changes what is held under that number
only. -/
theorem packets_multi (hmulti : info.multiFrame = true)
    (hnew : r.incomplete.lookup info.sequenceId = none) {fuel : Nat}
    (hfuel : buffer.length < fuel) (id : Nat) :
    (packets info fuel buffer [] r).2.incomplete.lookup id =
      if id = info.sequenceId then r.begun info buffer
      else r.incomplete.lookup id := by
  have hnone : r.incomplete.lookup id = if id = info.sequenceId then none
      else r.incomplete.lookup id := by
    split
    · next hid => rw [hid, hnew]
    · rfl
  obtain ⟨fuel, rfl⟩ : ∃ n, fuel = n + 1 := ⟨fuel - 1, by omega⟩
  rw [packets, begun]
  by_cases hempty : buffer.isEmpty
  · have htype : (nextRLP buffer).isEmpty := by
      have hle := nextRLP_length_le buffer
      simp_all
    rw [if_pos hempty]
    simp only [htype, Bool.true_or, ↓reduceIte]
    exact hnone
  · rw [if_neg hempty]
    obtain ⟨fuel, rfl⟩ : ∃ n, fuel = n + 1 := ⟨fuel - 1, by
      have hpos : 0 < buffer.length := by
        simpa [List.length_pos_iff, List.isEmpty_iff] using hempty
      omega⟩
    simp only [hmulti, ↓reduceIte, List.drop_length, Bool.true_and]
    generalize (if (buffer.drop (nextRLP buffer).length).isEmpty = true
      then RLPXPacket.ofBytes r.protocolType.toUInt8 (nextRLP buffer)
      else ((RLPXPacket.ofBytes r.protocolType.toUInt8
        (nextRLP buffer)).append _).2) = p
    generalize UInt32.ofNat (subSize _ _) = remaining
    by_cases htype : (nextRLP buffer).isEmpty = true
    · simp only [htype, Bool.true_or, ↓reduceIte]
      exact hnone
    · by_cases hvalid : p.isValid = true
      · simp only [htype, hvalid, Bool.or_true, Bool.true_or, ↓reduceIte,
          Bool.false_eq_true, packets_nil]
        exact hnone
      · by_cases hzero : remaining = 0
        · simp only [htype, hvalid, hzero, bne_self_eq_false, decide_true,
            Bool.or_true, ↓reduceIte, Bool.false_eq_true]
          exact hnone
        · simp only [htype, hvalid, hzero, bne_iff_ne, ne_eq, not_false_eq_true,
            decide_false, Bool.or_false, ↓reduceIte, Bool.false_eq_true,
            packets_nil]
          exact lookup_insertIncomplete hnew id

/-- A frame that was not dropped changes what is held under its number, if it
has one. -/
theorem lookup_accept (h : dropped info frame = false)
    (hmulti : info.multiFrame = true) (id : Nat) :
    (r.accept info frame).2.incomplete.lookup id =
      if id = info.sequenceId then r.entryAfter info (trimmed info frame)
      else r.incomplete.lookup id := by
  rw [dropped, Bool.or_eq_false_iff] at h
  rw [accept, h.1, h.2, entryAfter, continued]
  simp only [Bool.false_eq_true, ↓reduceIte, hmulti]
  rw [← trimmed]
  generalize trimmed info frame = buffer
  cases hentry : r.incomplete.lookup info.sequenceId with
  | none =>
      simp only [Option.filter_none]
      exact packets_multi hmulti hentry (Nat.lt_succ_self _) id
  | some entry =>
      obtain ⟨p, remaining⟩ := entry
      by_cases hgo : info.totalLength = 0 ∧ 0 < buffer.length ∧
          buffer.length ≤ remaining.toNat
      · have hfilter : (decide (info.totalLength = 0) &&
            decide (0 < buffer.length) &&
            decide (buffer.length ≤ remaining.toNat)) = true := by
          simp [hgo]
        simp only [Option.filter_some, hfilter, ↓reduceIte]
        rw [if_pos hgo, continuePacket]
        by_cases hzero : remaining - UInt32.ofNat buffer.length = 0
        · simp only [if_pos hzero]
          exact OrderedMap.lookup_erase _ _ _
        · simp only [if_neg hzero]
          exact OrderedMap.lookup_insert _ _ _ _
      · have hfilter : (decide (info.totalLength = 0) &&
            decide (0 < buffer.length) &&
            decide (buffer.length ≤ remaining.toNat)) = false := by
          simpa [and_assoc] using hgo
        simp only [Option.filter_some, hfilter, Bool.false_eq_true, ↓reduceIte]
        rw [if_neg hgo, packets_multi hmulti (by
          rw [OrderedMap.lookup_erase, if_pos rfl]) (Nat.lt_succ_self _)]
        split
        · rfl
        · next hid => rw [OrderedMap.lookup_erase, if_neg hid]

theorem accept_single (hmulti : info.multiFrame = false) :
    (r.accept info frame).2 = r := by
  rw [accept]
  split
  · rfl
  · split
    · rfl
    · simp only [hmulti, Bool.false_eq_true, ↓reduceIte]
      exact packets_single hmulti _ _ _

theorem length_trimmed_le (info : RLPXFrameInfo) (frame : Bytes) :
    (trimmed info frame).length ≤ frame.length :=
  (BytesConstRef.ofBytes frame).length_cropped_le 0 _

theorem ofBytes_size (capId : UInt8) (b : Bytes) :
    (RLPXPacket.ofBytes capId b).type.length +
      (RLPXPacket.ofBytes capId b).data.length = b.length := by
  have hle := nextRLP_length_le b
  rw [RLPXPacket.ofBytes]
  split
  · simp only [List.length_drop]
    omega
  · simp only [List.length_nil]
    omega

/-- A packet that was begun has the bytes of the frame and lacks, as numbers of
32 bits, the others. -/
theorem begun_size {p : RLPXPacket} {remaining : UInt32}
    (h : r.begun info buffer = some (p, remaining)) :
    0 < remaining.toNat ∧ p.type.length + p.data.length = buffer.length ∧
      (buffer.length + remaining.toNat) % 2 ^ 32 =
        info.totalLength % 2 ^ 32 := by
  simp only [begun, Option.ite_none_left_eq_some, Bool.or_eq_true,
    decide_eq_true_eq, not_or, Option.some.injEq, Prod.mk.injEq] at h
  obtain ⟨⟨-, hne⟩, hp, hremaining⟩ := h
  have htype := nextRLP_length_le buffer
  have hrest : (buffer.drop (nextRLP buffer).length).length =
      buffer.length - (nextRLP buffer).length := List.length_drop
  have hsize := ofBytes_size r.protocolType.toUInt8 (nextRLP buffer)
  refine ⟨?_, ?_, ?_⟩
  · rw [← hremaining, Nat.pos_iff_ne_zero]
    intro hzero
    exact hne (UInt32.toNat_inj.mp hzero)
  · rw [← hp]
    split
    · next hempty =>
        rw [List.isEmpty_iff] at hempty
        rw [hempty, List.length_nil] at hrest
        omega
    · simp only [RLPXPacket.append, List.length_append]
      omega
  · rw [← hremaining, hrest, UInt32.toNat_ofNat']
    simp only [subSize]
    omega

/-- A packet that is gone on with has the bytes of the frame besides. -/
theorem continued_size {p : RLPXPacket} {remaining : UInt32}
    (h : r.continued info buffer = some (p, remaining)) :
    r.incomplete.lookup info.sequenceId = some (p, remaining) ∧
      info.totalLength = 0 ∧ buffer.length ≤ remaining.toNat := by
  rw [continued, Option.filter_eq_some_iff] at h
  obtain ⟨hentry, hgo⟩ := h
  simp only [Bool.and_eq_true, decide_eq_true_eq] at hgo
  exact ⟨hentry, hgo.1.1, hgo.2⟩

/-- A buffer with the type of a packet that is not whole. -/
def isUnfinished (r : RLPXFrameReader) (buffer : Bytes) : Bool :=
  let type := nextRLP buffer
  let rest := buffer.drop type.length
  let p := RLPXPacket.ofBytes r.protocolType.toUInt8 type
  let p := if rest.isEmpty then p else (p.append rest).2
  !type.isEmpty && !p.isValid && decide (buffer.length % 2 ^ 32 ≠ 0)

theorem isSome_begun (hzero : info.totalLength = 0) :
    (r.begun info buffer).isSome = r.isUnfinished buffer := by
  have hle := nextRLP_length_le buffer
  have hremaining : (UInt32.ofNat (subSize (subSize info.totalLength
      (nextRLP buffer).length) (buffer.drop (nextRLP buffer).length).length) =
        0) = (buffer.length % 2 ^ 32 = 0) := by
    rw [← UInt32.toNat_inj, UInt32.toNat_ofNat', hzero, List.length_drop]
    simp only [subSize, UInt32.toNat_zero, eq_iff_iff]
    omega
  simp only [begun, isUnfinished, hremaining]
  generalize (if (buffer.drop (nextRLP buffer).length).isEmpty = true
    then RLPXPacket.ofBytes r.protocolType.toUInt8 (nextRLP buffer)
    else ((RLPXPacket.ofBytes r.protocolType.toUInt8
      (nextRLP buffer)).append _).2) = p
  generalize buffer.length % 2 ^ 32 = l
  cases (nextRLP buffer).isEmpty <;> cases p.isValid <;>
    by_cases hl : l = 0 <;> simp [hl]

/-- A frame with a number that announces no size and goes on with no packet,
and leaves one unfinished. -/
def strays (r : RLPXFrameReader) (info : RLPXFrameInfo) (frame : Bytes) :
    Bool :=
  !dropped info frame && info.multiFrame && info.totalLength == 0 &&
    (r.continued info (trimmed info frame)).isNone &&
    r.isUnfinished (trimmed info frame)

/-- The total size that the first frame of a sequence announced, the last one
of that number that was not dropped; zero if there was none. -/
def announced (id : Nat) (taken : List (RLPXFrameInfo × Bytes)) : Nat :=
  taken.foldl (fun total f =>
    if f.1.multiFrame ∧ f.1.sequenceId = id ∧ f.1.totalLength ≠ 0 ∧
      dropped f.1 f.2 = false then f.1.totalLength else total) 0

/-- Every packet that is held lacks what its size and the announced total
differ by. -/
def Accounted (r : RLPXFrameReader) (taken : List (RLPXFrameInfo × Bytes)) :
    Prop :=
  ∀ id p remaining, r.incomplete.lookup id = some (p, remaining) →
    announced id taken ≠ 0 ∧ 0 < remaining.toNat ∧
      p.type.length + p.data.length + remaining.toNat = announced id taken

variable {taken : List (RLPXFrameInfo × Bytes)}

theorem announced_append (id : Nat) :
    announced id (taken ++ [(info, frame)]) =
      if info.multiFrame ∧ info.sequenceId = id ∧ info.totalLength ≠ 0 ∧
        dropped info frame = false then info.totalLength
      else announced id taken := by
  rw [announced, List.foldl_append]
  rfl

/-- An announced size is a number of 32 bits. -/
theorem announced_lt (htaken : ∀ f ∈ taken, f.1.totalLength < 2 ^ 32)
    (id : Nat) : announced id taken < 2 ^ 32 := by
  induction taken using List.reverseRecOn with
  | nil => exact Nat.two_pow_pos 32
  | append_singleton taken f ih =>
      rw [announced_append]
      split
      · exact htaken f (by simp)
      · exact ih fun g hg => htaken g (by simp [hg])

/-- A frame that does not stray keeps the accounts. -/
theorem Accounted.accept (h : r.Accounted taken)
    (htotal : info.totalLength < 2 ^ 32) (hstray : r.strays info frame = false) :
    (r.accept info frame).2.Accounted (taken ++ [(info, frame)]) := by
  intro id p remaining hentry
  rw [announced_append]
  cases hdropped : dropped info frame with
  | true =>
      rw [accept_of_dropped hdropped] at hentry
      rw [if_neg (by simp)]
      exact h id p remaining hentry
  | false =>
      cases hmulti : info.multiFrame with
      | false =>
          rw [accept_single hmulti] at hentry
          rw [if_neg (by simp)]
          exact h id p remaining hentry
      | true =>
          rw [lookup_accept hdropped hmulti] at hentry
          by_cases hid : id = info.sequenceId
          · rw [if_pos hid] at hentry
            subst hid
            have hle := length_trimmed_le info frame
            cases hgo : r.continued info (trimmed info frame) with
            | some entry =>
                obtain ⟨p', remaining'⟩ := entry
                obtain ⟨hheld, hzero, hroom⟩ := continued_size hgo
                obtain ⟨hannounced, hpos, hsum⟩ := h _ p' remaining' hheld
                simp only [entryAfter, hgo, Option.ite_none_left_eq_some,
                  Option.some.injEq, Prod.mk.injEq] at hentry
                obtain ⟨hne, rfl, rfl⟩ := hentry
                rw [if_neg (fun hnew => hnew.2.2.1 hzero)]
                have hleft := toNat_sub_ofNat hroom
                have hnat : (remaining' - UInt32.ofNat
                    (trimmed info frame).length).toNat ≠ 0 :=
                  fun hn => hne (UInt32.toNat_inj.mp hn)
                refine ⟨hannounced, Nat.pos_of_ne_zero hnat, ?_⟩
                simp only [RLPXPacket.append, List.length_append, hleft]
                omega
            | none =>
                simp only [entryAfter, hgo] at hentry
                obtain ⟨hpos, hsize, hmod⟩ := begun_size hentry
                have hnonzero : info.totalLength ≠ 0 := by
                  intro hzero
                  have hleft := @isSome_begun r info (trimmed info frame) hzero
                  rw [hentry, Option.isSome_some] at hleft
                  simp [strays, hdropped, hmulti, hzero, hgo, ← hleft]
                    at hstray
                rw [if_pos ⟨rfl, rfl, hnonzero, rfl⟩]
                have hfits : frame.length ≤ info.totalLength := by
                  simpa [dropped, hmulti, hnonzero] using
                    (Bool.or_eq_false_iff.mp hdropped).2
                have hlt := remaining.toNat_lt
                refine ⟨hnonzero, hpos, ?_⟩
                omega
          · rw [if_neg hid] at hentry
            rw [if_neg (fun hnew => hid hnew.2.1.symm)]
            exact h id p remaining hentry

/-- A frame that strays leaves a packet that the accounts do not cover. -/
theorem not_accounted_of_strays
    (htaken : ∀ f ∈ taken, f.1.totalLength < 2 ^ 32)
    (hstray : r.strays info frame = true) :
    ¬ (r.accept info frame).2.Accounted (taken ++ [(info, frame)]) := by
  simp only [strays, Bool.and_eq_true, Bool.not_eq_true', beq_iff_eq,
    Option.isNone_iff_eq_none] at hstray
  obtain ⟨⟨⟨⟨hdropped, hmulti⟩, hzero⟩, hgo⟩, hleft⟩ := hstray
  rw [← isSome_begun hzero, Option.isSome_iff_exists] at hleft
  obtain ⟨⟨p, remaining⟩, hentry⟩ := hleft
  intro hall
  have hheld : (r.accept info frame).2.incomplete.lookup info.sequenceId =
      some (p, remaining) := by
    rw [lookup_accept hdropped hmulti, if_pos rfl, entryAfter, hgo]
    exact hentry
  obtain ⟨-, hpos, hsum⟩ := hall _ p remaining hheld
  obtain ⟨-, hsize, hmod⟩ := begun_size hentry
  rw [announced_append, if_neg (fun hnew => hnew.2.2.1 hzero)] at hsum
  have hlt := announced_lt htaken info.sequenceId
  rw [hsize] at hsum
  rw [hsum, hzero] at hmod
  omega

end RLPXFrameReader

/-- A reader with the coder of its connection.  The frames whose tags were
right and whose headers could be read are recorded. -/
structure FrameReading where
  reader : RLPXFrameReader
  coder : RLPXFrameCoder
  taken : List (RLPXFrameInfo × Bytes) := []

namespace FrameReading

variable (crypto : Crypto)

/-- The header and the frame in what has come in, if both tags are right. -/
def opened (c : RLPXFrameCoder) (b : Bytes) : Option (RLPXFrameInfo × Bytes) :=
  match c.authAndDecryptHeader crypto (b.take 32) with
  | .ok (true, header, c) =>
      match RLPXFrameInfo.ofHeader header with
      | .ok info =>
          match c.authAndDecryptFrame crypto (b.drop 32) with
          | .ok (true, frame, _) => some (info, frame)
          | _ => none
      | .error _ => none
  | _ => none

/-- A header comes in with a frame, and the frame is given to `demux` unless
the header is refused.  An exception of `demux` is caught by the caller. -/
def receive (s : FrameReading) (b : Bytes) : FrameReading :=
  let taken := s.taken ++ (opened crypto s.coder b).toList
  match s.coder.authAndDecryptHeader crypto (b.take 32) with
  | .ok (true, header, coder) =>
      match RLPXFrameInfo.ofHeader header with
      | .ok info =>
          let result := s.reader.demux crypto coder info (b.drop 32)
          { reader := result.2.1, coder := result.2.2, taken }
      | .error _ => { s with coder, taken }
  | .ok (false, _, coder) => { s with coder, taken }
  | .error _ => { s with taken }

def run (s : FrameReading) (frames : List Bytes) : FrameReading :=
  frames.foldl (receive crypto) s

/-- Every packet that is held has its account. -/
def Accounted (s : FrameReading) : Prop := s.reader.Accounted s.taken

/-- Whether what has come in is a frame that strays. -/
def strays (s : FrameReading) (b : Bytes) : Bool :=
  (opened crypto s.coder b).any fun f => s.reader.strays f.1 f.2

variable {crypto} {s : FrameReading} {b : Bytes}

/-- The reader changes with a frame that can be opened only. -/
theorem receive_cases :
    (opened crypto s.coder b = none ∧ (s.receive crypto b).reader = s.reader) ∨
      ∃ info frame, opened crypto s.coder b = some (info, frame) ∧
        info.totalLength < 2 ^ 32 ∧
        (s.receive crypto b).reader = (s.reader.accept info frame).2 := by
  cases hheader : s.coder.authAndDecryptHeader crypto (b.take 32) with
  | error e => exact .inl ⟨by simp [opened, hheader], by simp [receive, hheader]⟩
  | ok r =>
      obtain ⟨right, header, coder⟩ := r
      cases right with
      | false =>
          exact .inl ⟨by simp [opened, hheader], by simp [receive, hheader]⟩
      | true =>
          cases hinfo : RLPXFrameInfo.ofHeader header with
          | error e =>
              exact .inl ⟨by simp [opened, hheader, hinfo],
                by simp [receive, hheader, hinfo]⟩
          | ok info =>
              simp only [receive, opened, hheader, hinfo, RLPXFrameReader.demux]
              cases hframe : coder.authAndDecryptFrame crypto (b.drop 32) with
              | error e => exact .inl ⟨rfl, rfl⟩
              | ok r =>
                  obtain ⟨right, frame, coder'⟩ := r
                  cases right with
                  | false => exact .inl ⟨rfl, rfl⟩
                  | true =>
                      exact .inr ⟨info, frame, rfl,
                        RLPXFrameInfo.totalLength_lt hinfo, rfl⟩

theorem taken_receive : (s.receive crypto b).taken =
    s.taken ++ (opened crypto s.coder b).toList := by
  rw [receive]
  split
  · split <;> rfl
  · rfl
  · rfl

/-- The accounts are right, and no recorded size is larger than 32 bits. -/
structure Sound (s : FrameReading) : Prop where
  accounted : s.Accounted
  taken_lt : ∀ f ∈ s.taken, f.1.totalLength < 2 ^ 32

theorem Sound.receive (h : s.Sound) (hstray : s.strays crypto b = false) :
    (s.receive crypto b).Sound := by
  rcases @receive_cases crypto s b with ⟨hnone, hreader⟩ |
    ⟨info, frame, hopened, htotal, hreader⟩
  · have htaken : (s.receive crypto b).taken = s.taken := by
      simp [taken_receive, hnone]
    constructor
    · rw [Accounted, hreader, htaken]
      exact h.accounted
    · rw [htaken]
      exact h.taken_lt
  · have htaken : (s.receive crypto b).taken = s.taken ++ [(info, frame)] := by
      simp [taken_receive, hopened]
    constructor
    · rw [Accounted, hreader, htaken]
      exact h.accounted.accept htotal (by simpa [strays, hopened] using hstray)
    · rw [htaken]
      intro f hf
      rcases List.mem_append.mp hf with hold | hnew
      · exact h.taken_lt f hold
      · rw [List.mem_singleton.mp hnew]
        exact htotal

theorem Sound.not_accounted (h : s.Sound) (hstray : s.strays crypto b = true) :
    ¬ (s.receive crypto b).Accounted := by
  rcases @receive_cases crypto s b with ⟨hnone, -⟩ |
    ⟨info, frame, hopened, -, hreader⟩
  · simp [strays, hnone] at hstray
  · rw [Accounted, hreader, taken_receive, hopened]
    exact RLPXFrameReader.not_accounted_of_strays h.taken_lt
      (by simpa [strays, hopened] using hstray)

/-- A reader that starts with nothing keeps its accounts over a run exactly if
no frame of the run strays. -/
theorem accounted_iff (crypto : Crypto) (protocolType : UInt16)
    (coder : RLPXFrameCoder) (frames : List Bytes) :
    (∀ before, before <+: frames →
        (run crypto { reader := { protocolType }, coder } before).Accounted) ↔
      ∀ before b, before ++ [b] <+: frames →
        (run crypto { reader := { protocolType }, coder } before).strays crypto
          b = false := by
  have hstart : Sound { reader := { protocolType }, coder } := by
    constructor
    · intro id p remaining hentry
      cases hentry
    · intro f hf
      cases hf
  exact foldl_along_iff (Q := Accounted)
    (fun s hs => hs.accounted) (fun s b hs hgood => hs.receive hgood)
    (fun s b hs hbad => hs.not_accounted (by simpa using hbad)) frames _ hstart

/-- A frame with the number one that goes on with nothing. -/
def orphanFrame : Bytes :=
  match (RLPXFrame.next 0 1 [1, 0x82, 5]).write plainCrypto plainCoder with
  | .ok r => r.1
  | .error _ => []

/-- The reader holds the packet of such a frame, and takes it to lack nearly
4 GiB that nobody announced. -/
theorem orphan_held :
    let s := run plainCrypto { reader := { protocolType := 0 }, coder := plainCoder }
      [orphanFrame]
    s.reader.incomplete.lookup 1 = some (⟨0, [1], [0x82, 5]⟩, 0xfffffffd) ∧
      RLPXFrameReader.announced 1 s.taken = 0 ∧ ¬ s.Accounted := by
  intro s
  have hheld : s.reader.incomplete.lookup 1 =
      some (⟨0, [1], [0x82, 5]⟩, 0xfffffffd) := by decide +kernel
  have hnone : RLPXFrameReader.announced 1 s.taken = 0 := by decide +kernel
  exact ⟨hheld, hnone, fun h => (h 1 _ _ hheld).1 hnone⟩

end FrameReading

end Web3Core
