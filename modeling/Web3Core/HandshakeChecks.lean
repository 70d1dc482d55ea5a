/-
When a handshake starts a session.  Every handler but one takes a failed check
to `error`; the handler of `readAuth` records a hash mismatch and goes on.  So a
session is started by an authenticated handshake only, if every auth message
that is read carries the hash of the key it was signed with.
-/
import Web3Core.RLPXHandshake
import Web3Core.RLPXConnection
import Web3Core.Runs

namespace Web3Core

namespace SocketOperation

/-- The checks on the way to the Hello packet, in their order. -/
def checksBeforeHello (originated : Bool) : List HandshakeCheck :=
  if originated then [.io, .io, .decryptAck]
  else [.io, .decryptAuth, .ephemeralHash, .io]

/-- The checks on the way to an operation, in their order. -/
def checksBefore (originated : Bool) : SocketOperation → List HandshakeCheck
  | .writeAuth => []
  | .readAuth => []
  | .writeAck => [.io, .decryptAuth, .ephemeralHash]
  | .readAck => [.io]
  | .writeHello => checksBeforeHello originated
  | .readHeader => checksBeforeHello originated ++ [.io]
  | .readFrame _ =>
      checksBeforeHello originated ++ [.io, .io, .headerMAC, .frameSize]

/-- The state while an operation is pending. -/
def stateAt : SocketOperation → HandshakeState
  | .writeAuth => .ackAuth
  | .readAuth => .ackAuth
  | .writeAck => .writeHello
  | .readAck => .writeHello
  | .writeHello => .readHello
  | .readHeader => .startSession
  | .readFrame _ => .startSession

/-- Whether an operation is one of the given side. -/
def isOf (originated : Bool) : SocketOperation → Bool
  | .writeAuth => originated
  | .readAuth => !originated
  | .writeAck => !originated
  | .readAck => originated
  | _ => true

end SocketOperation

namespace HandshakeState

/-- The operation that a transition from a state starts. -/
def operation (originated : Bool) : HandshakeState → Option SocketOperation
  | .new => some (if originated then .writeAuth else .readAuth)
  | .ackAuth => some (if originated then .readAck else .writeAck)
  | .writeHello => some .writeHello
  | .readHello => some .readHeader
  | _ => none

end HandshakeState

namespace RLPXHandshake

open SocketOperation (checksBefore checksBeforeHello stateAt isOf)

variable {crypto : HandshakeCrypto} {host : HandshakeHost}
  {h h' : RLPXHandshake} {failed : Bool} {op : SocketOperation}

/-- All checks of a handshake, in their order. -/
def allChecks (originated : Bool) : List HandshakeCheck :=
  checksBeforeHello originated ++
    [.io, .io, .headerMAC, .frameSize, .io, .frameMAC, .packetType, .packetRLP]

def passed (checks : List HandshakeCheck) : List (HandshakeCheck × Bool) :=
  checks.map fun check => (check, true)

/-- What a handshake is to guarantee: a session is started at most once, and
after all checks have passed; once a check or an operation has failed there was
a call of `error` and none of `startPeerSession`. -/
structure Secure (h : RLPXHandshake) : Prop where
  once : h.sessions ≤ 1
  checked : h.sessions = 1 → h.checks = passed (allChecks h.originated)
  refused : ∀ check, (check, false) ∈ h.checks → 0 < h.errors ∧ h.sessions = 0

/-- Where a handshake is: it waits for an operation and all checks on the way
have passed, or it was ended by `error`, or it has started the session. -/
inductive Stage (h : RLPXHandshake) : Prop where
  | waiting (op : SocketOperation) (hpending : h.pending = some op)
      (hside : op.isOf h.originated = true) (hstate : h.nextState = op.stateAt)
      (hchecks : h.checks = passed (op.checksBefore h.originated))
      (herrors : h.errors = 0) (hsessions : h.sessions = 0) : Stage h
  | closed (hpending : h.pending = none) (herrors : 0 < h.errors)
      (hsessions : h.sessions = 0) : Stage h
  | started (hpending : h.pending = none) (hsessions : h.sessions = 1)
      (hchecks : h.checks = passed (allChecks h.originated)) : Stage h

theorem not_failed (checks : List HandshakeCheck) (check : HandshakeCheck) :
    (check, false) ∉ passed checks := by
  simp [passed]

theorem Stage.secure (hstage : Stage h) : h.Secure := by
  cases hstage with
  | waiting op hpending hside hstate hchecks herrors hsessions =>
      refine ⟨by omega, fun hone => by omega, fun check hcheck => ?_⟩
      rw [hchecks] at hcheck
      exact absurd hcheck (not_failed _ _)
  | closed hpending herrors hsessions =>
      exact ⟨by omega, fun hone => by omega, fun _ _ => ⟨herrors, hsessions⟩⟩
  | started hpending hsessions hchecks =>
      refine ⟨by omega, fun _ => hchecks, fun check hcheck => ?_⟩
      rw [hchecks] at hcheck
      exact absurd hcheck (not_failed _ _)

theorem writeHello_cases (heq : h.writeHello crypto host = .ok h') :
    h'.pending = some .writeHello ∧ h'.nextState = h.nextState ∧
      h'.originated = h.originated ∧ h'.checks = h.checks ∧
      h'.errors = h.errors ∧ h'.sessions = h.sessions := by
  rw [writeHello] at heq
  cases hcoder : RLPXFrameCoder.setup crypto.toCrypto h.originated
      h.remoteEphemeral h.remoteNonce h.ecdhe h.nonce h.ackCipher
      h.authCipher with
  | error e => simp [hcoder] at heq
  | ok coder =>
      rw [hcoder, ok_bind] at heq
      cases hframe : coder.writeSingleFramePacket crypto.toCrypto
          host.helloPacket with
      | error e => simp [hframe] at heq
      | ok frame =>
          rw [hframe, ok_bind, Except.ok.injEq] at heq
          subst heq
          exact ⟨rfl, rfl, rfl, rfl, rfl, rfl⟩

/-- A transition ends in a call of `error` or starts the operation of its
state. -/
theorem transition_cases (hop : h.nextState.operation h.originated = some op)
    (heq : h.transition crypto host failed = .ok h') :
    h' = h.error ∨
      (failed = false ∧ h.cancel = false ∧ h'.pending = some op ∧
        h'.nextState = op.stateAt ∧ h'.originated = h.originated ∧
        h'.checks = h.checks ∧ h'.errors = h.errors ∧
        h'.sessions = h.sessions) := by
  rw [transition] at heq
  by_cases hend : failed ∨ h.nextState = .error ∨ h.cancel
  · rw [if_pos hend, Except.ok.injEq] at heq
    exact .inl heq.symm
  · rw [if_neg hend] at heq
    have hgo : failed = false ∧ h.cancel = false := by
      cases failed <;> cases hc : h.cancel <;> simp_all
    refine .inr ⟨hgo.1, hgo.2, ?_⟩
    cases hstate : h.nextState with
    | new =>
        cases horiginated : h.originated with
        | true =>
            simp only [hstate, horiginated, HandshakeState.operation,
              ↓reduceIte, Option.some.injEq, Except.ok.injEq] at hop heq
            subst hop heq
            exact ⟨rfl, rfl, rfl, rfl, rfl, rfl⟩
        | false =>
            simp only [hstate, horiginated, HandshakeState.operation,
              Bool.false_eq_true, ↓reduceIte, Option.some.injEq,
              Except.ok.injEq] at hop heq
            subst hop heq
            exact ⟨rfl, rfl, rfl, rfl, rfl, rfl⟩
    | ackAuth =>
        cases horiginated : h.originated with
        | true =>
            simp only [hstate, horiginated, HandshakeState.operation,
              ↓reduceIte, Option.some.injEq, Except.ok.injEq] at hop heq
            subst hop heq
            exact ⟨rfl, rfl, rfl, rfl, rfl, rfl⟩
        | false =>
            simp only [hstate, horiginated, HandshakeState.operation,
              Bool.false_eq_true, ↓reduceIte, Option.some.injEq,
              Except.ok.injEq] at hop heq
            subst hop heq
            exact ⟨rfl, rfl, rfl, rfl, rfl, rfl⟩
    | writeHello =>
        simp only [hstate, HandshakeState.operation, Option.some.injEq]
          at hop heq
        subst hop
        exact writeHello_cases heq
    | readHello =>
        simp only [hstate, HandshakeState.operation, Option.some.injEq,
          Except.ok.injEq] at hop heq
        subst hop heq
        exact ⟨rfl, rfl, rfl, rfl, rfl, rfl⟩
    | error => simp [hstate, HandshakeState.operation] at hop
    | startSession => simp [hstate, HandshakeState.operation] at hop

/-- A handshake that is to go on waits for its next operation or is closed. -/
theorem Stage.of_transition (op : SocketOperation)
    (heq : h.transition crypto host failed = .ok h')
    (hop : h.nextState.operation h.originated = some op)
    (hpending : h.pending = none) (hside : op.isOf h.originated = true)
    (hchecks : h.checks = passed (op.checksBefore h.originated))
    (herrors : h.errors = 0) (hsessions : h.sessions = 0) : Stage h' := by
  rcases transition_cases hop heq with rfl |
    ⟨-, -, hpending', hstate', horiginated', hchecks', herrors', hsessions'⟩
  · exact .closed hpending (Nat.succ_pos _) hsessions
  · refine .waiting op hpending' ?_ hstate' ?_ (herrors'.trans herrors)
      (hsessions'.trans hsessions)
    · rw [horiginated', hside]
    · rw [hchecks', horiginated', hchecks]

theorem transition_closed (hend : failed = true ∨ h.nextState = .error) :
    h.transition crypto host failed = .ok h.error := by
  rw [transition, if_pos]
  rcases hend with hfailed | hstate
  · exact .inl hfailed
  · exact .inr (.inl hstate)

/-- A check that fails closes the handshake. -/
theorem Stage.of_fail {check : HandshakeCheck}
    (heq : h.fail crypto host check = .ok h') (hpending : h.pending = none)
    (hsessions : h.sessions = 0) : Stage h' := by
  rw [fail, transition_closed (.inr rfl), Except.ok.injEq] at heq
  subst heq
  exact .closed hpending (Nat.succ_pos _) hsessions

/-- The handler of `readAck`. -/
theorem Stage.of_onReadAck {b : Bytes}
    (heq : h.onReadAck crypto host b = .ok h') (hpending : h.pending = none)
    (hside : h.originated = true) (hstate : h.nextState = .writeHello)
    (hchecks : h.checks = passed [.io, .io]) (herrors : h.errors = 0)
    (hsessions : h.sessions = 0) : Stage h' := by
  rw [onReadAck] at heq
  cases hplain : crypto.decryptECIES host.sec b with
  | none =>
      simp only [hplain] at heq
      exact .of_fail heq hpending hsessions
  | some ack =>
      simp only [hplain] at heq
      split at heq
      · cases heq
      · refine .of_transition .writeHello heq ?_ hpending rfl ?_ herrors
          hsessions
        · simp only [note, hstate]
          rfl
        · simp only [note, hchecks, hside]
          rfl

/-- The handler of `readAuth`, with a message that carries the hash. -/
theorem Stage.of_onReadAuth {b : Bytes}
    (heq : h.onReadAuth crypto host b = .ok h') (hpending : h.pending = none)
    (hside : h.originated = false) (hstate : h.nextState = .ackAuth)
    (hchecks : h.checks = passed [.io]) (herrors : h.errors = 0)
    (hsessions : h.sessions = 0)
    (hmatch : ∀ auth, crypto.decryptECIES host.sec b = some auth →
      65 + 32 + 64 + 32 ≤ auth.length →
      hashMatches crypto host auth = true ∨ h.cancel = true) :
    Stage h' := by
  rw [onReadAuth] at heq
  cases hplain : crypto.decryptECIES host.sec b with
  | none =>
      simp only [hplain] at heq
      exact .of_fail heq hpending hsessions
  | some auth =>
      simp only [hplain] at heq
      split at heq
      · cases heq
      next hlen =>
        rcases hmatch auth hplain (Nat.not_lt.mp hlen) with hhash | hcancel
        · refine .of_transition .writeAck heq ?_ hpending ?_ ?_ herrors
            hsessions
          · simp only [note, hstate, hside]
            rfl
          · simp only [note, hside]
            rfl
          · simp only [note, hchecks, hhash, hside]
            rfl
        · rw [transition, if_pos (.inr (.inr hcancel)), Except.ok.injEq] at heq
          subst heq
          exact .closed hpending (Nat.succ_pos _) hsessions

/-- The handler of the read of the header. -/
theorem Stage.of_onReadHeader {b : Bytes}
    (heq : h.onReadHeader crypto host b = .ok h') (hpending : h.pending = none)
    (hstate : h.nextState = .startSession)
    (hchecks : h.checks =
      passed (checksBeforeHello h.originated ++ [.io, .io]))
    (herrors : h.errors = 0) (hsessions : h.sessions = 0) : Stage h' := by
  rw [onReadHeader] at heq
  cases hio : h.io with
  | none => simp [hio] at heq
  | some coder =>
      simp only [hio] at heq
      cases hread : coder.authAndDecryptHeader crypto.toCrypto b with
      | error e => simp [hread] at heq
      | ok r =>
          rw [hread, ok_bind] at heq
          cases hmac : r.1 with
          | false =>
              simp only [hmac, Bool.not_false, ↓reduceIte] at heq
              exact .of_fail heq hpending hsessions
          | true =>
              simp only [hmac, Bool.not_true, Bool.false_eq_true,
                ↓reduceIte] at heq
              split at heq
              · exact .of_fail heq hpending hsessions
              · rw [Except.ok.injEq] at heq
                subst heq
                refine .waiting _ rfl rfl hstate ?_ herrors hsessions
                simp [note, hchecks, passed, checksBefore]

/-- All checks have passed: the session is started. -/
theorem Stage.of_start {throws : Bool} {g : RLPXHandshake}
    (heq : (if throws = true
      then { g with nextState := .error }.transition crypto host false
      else .ok g) = .ok h')
    (hpending : g.pending = none) (hsessions : g.sessions = 1)
    (hchecks : g.checks = passed (allChecks g.originated)) : Stage h' := by
  cases throws with
  | true =>
      rw [if_pos rfl, transition_closed (.inr rfl), Except.ok.injEq] at heq
      subst heq
      exact .started hpending hsessions hchecks
  | false =>
      rw [if_neg Bool.false_ne_true, Except.ok.injEq] at heq
      subst heq
      exact .started hpending hsessions hchecks

/-- The handler of the read of the frame. -/
theorem Stage.of_onReadFrame {b : Bytes} {throws : Bool}
    (heq : h.onReadFrame crypto host b throws = .ok h')
    (hpending : h.pending = none)
    (hchecks : h.checks = passed
      (checksBeforeHello h.originated ++
        [.io, .io, .headerMAC, .frameSize, .io]))
    (hsessions : h.sessions = 0) : Stage h' := by
  rw [onReadFrame] at heq
  cases hio : h.io with
  | none => simp [hio] at heq
  | some coder =>
      simp only [hio] at heq
      cases hread : coder.authAndDecryptFrame crypto.toCrypto b with
      | error e => simp [hread] at heq
      | ok r =>
          rw [hread, ok_bind] at heq
          cases hmac : r.1 with
          | false =>
              simp only [hmac, Bool.not_false, ↓reduceIte] at heq
              exact .of_fail heq hpending hsessions
          | true =>
              simp only [hmac, Bool.not_true, Bool.false_eq_true,
                ↓reduceIte] at heq
              generalize (if r.2.1.headD 0 = 0x80 then 0
                else r.2.1.headD 0) = packetType at heq
              by_cases htype : packetType ≠ 0
              · rw [if_pos htype] at heq
                exact .of_fail heq hpending hsessions
              · rw [if_neg htype] at heq
                cases hrlp : RLP.ofRef
                    ((BytesConstRef.ofBytes r.2.1).croppedFrom 1)
                    .throwIfTooSmall with
                | error e =>
                    simp only [hrlp] at heq
                    exact .of_fail heq hpending hsessions
                | ok rlp =>
                    simp only [hrlp] at heq
                    refine .of_start heq hpending (congrArg (· + 1) hsessions)
                      ?_
                    simp [note, hchecks, passed, allChecks]

/-- An operation that fails closes the handshake. -/
theorem Stage.of_ioError (heq : (h.note .io false).transition crypto host true =
      .ok h') (hpending : h.pending = none) (hsessions : h.sessions = 0) :
    Stage h' := by
  rw [transition_closed (.inl rfl), Except.ok.injEq] at heq
  subst heq
  exact .closed hpending (Nat.succ_pos _) hsessions

/-- Whether the auth message that a step reads, if it reads one, carries the
hash of the key that it was signed with; or the handshake was cancelled. -/
def Authentic (crypto : HandshakeCrypto) (host : HandshakeHost)
    (h : RLPXHandshake) : HandshakeEvent → Prop
  | .complete (some b) _ =>
      h.pending = some .readAuth → b.length = SocketOperation.readAuth.size →
        ∀ auth, crypto.decryptECIES host.sec b = some auth →
          65 + 32 + 64 + 32 ≤ auth.length →
            hashMatches crypto host auth = true ∨ h.cancel = true
  | _ => True

/-- The completion of the operation that a handshake waits for. -/
theorem Stage.of_handle {b : Bytes} {throws : Bool}
    (heq : { h with pending := none }.handle crypto host op (some b) throws =
      .ok h')
    (hside : op.isOf h.originated = true) (hstate : h.nextState = op.stateAt)
    (hchecks : h.checks = passed (op.checksBefore h.originated))
    (herrors : h.errors = 0) (hsessions : h.sessions = 0)
    (hmatch : op = .readAuth → ∀ auth,
      crypto.decryptECIES host.sec b = some auth →
        65 + 32 + 64 + 32 ≤ auth.length →
          hashMatches crypto host auth = true ∨ h.cancel = true) :
    Stage h' := by
  have hpassed : h.checks ++ [(HandshakeCheck.io, true)] =
      passed (op.checksBefore h.originated ++ [.io]) := by
    simp [hchecks, passed]
  cases op with
  | writeAuth =>
      refine .of_transition .readAck heq ?_ rfl hside ?_ herrors hsessions
      · simp only [note, hstate, stateAt, HandshakeState.operation]
        rw [if_pos (show h.originated = true from hside)]
      · exact hpassed
  | readAuth =>
      have hingress : h.originated = false := by simpa [isOf] using hside
      exact .of_onReadAuth heq rfl hingress hstate hpassed herrors hsessions
        (hmatch rfl)
  | writeAck =>
      have hingress : h.originated = false := by simpa [isOf] using hside
      refine .of_transition .writeHello heq ?_ rfl rfl ?_ herrors hsessions
      · simp only [note, hstate, stateAt, HandshakeState.operation]
      · simpa [note, checksBefore, checksBeforeHello, hingress] using hpassed
  | readAck =>
      exact .of_onReadAck heq rfl hside hstate hpassed herrors hsessions
  | writeHello =>
      refine .of_transition .readHeader heq ?_ rfl rfl ?_ herrors hsessions
      · simp only [note, hstate, stateAt, HandshakeState.operation]
      · exact hpassed
  | readHeader =>
      refine .of_onReadHeader heq rfl hstate ?_ herrors hsessions
      simpa [note, checksBefore] using hpassed
  | readFrame size =>
      refine .of_onReadFrame heq rfl ?_ hsessions
      simpa [note, checksBefore] using hpassed

/-- A step that reads no false auth message goes on, closes the handshake, or
starts the session. -/
theorem Stage.of_step {event : HandshakeEvent} (hstage : Stage h)
    (hauthentic : h.Authentic crypto host event)
    (heq : h.step crypto host event = .ok h') : Stage h' := by
  cases event with
  | cancel =>
      rw [step, Except.ok.injEq] at heq
      subst heq
      cases hstage with
      | waiting op hpending hside hstate hchecks herrors hsessions =>
          exact .waiting op hpending hside hstate hchecks herrors hsessions
      | closed hpending herrors hsessions =>
          exact .closed hpending herrors hsessions
      | started hpending hsessions hchecks =>
          exact .started hpending hsessions hchecks
  | complete result throws =>
      have hidle : h.pending = none → Stage h' := fun hpending => by
        simp only [step, hpending, Except.ok.injEq] at heq
        exact heq ▸ hstage
      cases hstage with
      | closed hpending herrors hsessions => exact hidle hpending
      | started hpending hsessions hchecks => exact hidle hpending
      | waiting op hpending hside hstate hchecks herrors hsessions =>
          have hstage : Stage h :=
            .waiting op hpending hside hstate hchecks herrors hsessions
          simp only [step, hpending] at heq
          cases result with
          | none =>
              simp only [Option.all_none, ↓reduceIte] at heq
              exact .of_ioError heq rfl hsessions
          | some b =>
              by_cases hsize : b.length = op.size
              · rw [if_pos (by simpa using hsize)] at heq
                refine .of_handle heq hside hstate hchecks herrors hsessions ?_
                rintro rfl
                exact hauthentic hpending hsize
              · rw [if_neg (by simpa using hsize), Except.ok.injEq] at heq
                exact heq ▸ hstage

/-- The handler of `readAuth` goes on after a hash mismatch: the check has
failed and there is no call of `error`. -/
theorem onReadAuth_mismatch {b auth : Bytes} (hside : h.originated = false)
    (hstate : h.nextState = .ackAuth) (hcancel : h.cancel = false)
    (hplain : crypto.decryptECIES host.sec b = some auth)
    (hlen : 65 + 32 + 64 + 32 ≤ auth.length)
    (hhash : hashMatches crypto host auth = false) :
    ∃ h', h.onReadAuth crypto host b = .ok h' ∧ h'.errors = h.errors ∧
      (HandshakeCheck.ephemeralHash, false) ∈ h'.checks := by
  rw [onReadAuth]
  simp only [hplain]
  rw [if_neg (Nat.not_lt.mpr hlen), transition, if_neg (by
    simp [note, hstate, hcancel])]
  simp only [note, hstate, hside, Bool.false_eq_true, ↓reduceIte]
  exact ⟨_, rfl, rfl, by simp [writeAck, hhash]⟩

/-- A step that reads a false auth message is not secure. -/
theorem not_secure_of_step {event : HandshakeEvent} (hstage : Stage h)
    (hfalse : ¬ h.Authentic crypto host event) :
    ∃ h', h.step crypto host event = .ok h' ∧ ¬ h'.Secure := by
  cases event with
  | cancel => exact absurd trivial hfalse
  | complete result throws =>
      cases result with
      | none => exact absurd trivial hfalse
      | some b =>
          simp only [Authentic, not_forall, not_or, Bool.not_eq_true] at hfalse
          obtain ⟨hauth, hsize, auth, hplain, hlen, hhash, hcancel⟩ := hfalse
          cases hstage with
          | closed hpending => simp [hpending] at hauth
          | started hpending => simp [hpending] at hauth
          | waiting op hpending hside hstate hchecks herrors hsessions =>
              obtain rfl : op = .readAuth := by
                rw [hauth, Option.some.injEq] at hpending
                exact hpending.symm
              simp only [step, hpending]
              rw [if_pos (by simpa using hsize)]
              have hingress : h.originated = false := by
                simpa [isOf] using hside
              obtain ⟨h', heq, herrors', hcheck⟩ :=
                @onReadAuth_mismatch crypto host
                  ({ h with pending := none }.note .io true) b auth hingress
                  hstate hcancel hplain hlen hhash
              refine ⟨h', heq, fun hsecure => ?_⟩
              have hpos := (hsecure.refused _ hcheck).1
              rw [herrors'] at hpos
              exact absurd hpos (by simp [note, herrors])

/-- From any stage on, a run is secure throughout if and only if it reads no
false auth message. -/
theorem secure_iff_of_stage (crypto : HandshakeCrypto) (host : HandshakeHost)
    (events : List HandshakeEvent) :
    ∀ h : RLPXHandshake, h.Stage →
      ((∀ before t, before <+: events →
          before.foldlM (step crypto host) h = .ok t → t.Secure) ↔
        ∀ before event t, before ++ [event] <+: events →
          before.foldlM (step crypto host) h = .ok t →
          t.Authentic crypto host event) :=
  @foldlM_ok_along_iff _ _ _ (step crypto host) Stage Secure
    (fun h event => h.Authentic crypto host event)
    (fun _ hstage => hstage.secure)
    (fun _ _ _ hstage hauthentic heq => hstage.of_step hauthentic heq)
    (fun _ _ hstage hfalse => not_secure_of_step hstage hfalse) events

/-- The handshake as it is set up. -/
def setup (originated : Bool) (remote : H512) (ecdhe : ECDHE) (nonce : H256) :
    RLPXHandshake :=
  { originated, remote, ecdhe, nonce }

/-- Starting the handshake. -/
theorem Stage.of_start_transition {originated : Bool} {remote : H512}
    {ecdhe : ECDHE} {nonce : H256}
    (heq : (setup originated remote ecdhe nonce).transition crypto host
      false = .ok h') : Stage h' := by
  cases originated with
  | true => exact .of_transition .writeAuth heq rfl rfl rfl rfl rfl rfl
  | false => exact .of_transition .readAuth heq rfl rfl rfl rfl rfl rfl

/-- A handshake is secure in every state of a run if and only if no auth
message is read that does not carry the hash of the key it was signed with. -/
theorem secure_iff (crypto : HandshakeCrypto) (host : HandshakeHost)
    (originated : Bool) (remote : H512) (ecdhe : ECDHE) (nonce : H256)
    (events : List HandshakeEvent) :
    (∀ before t, before <+: events →
        (setup originated remote ecdhe nonce).run crypto host before = .ok t →
        t.Secure) ↔
      ∀ before event t, before ++ [event] <+: events →
        (setup originated remote ecdhe nonce).run crypto host before = .ok t →
        t.Authentic crypto host event := by
  cases hstart : (setup originated remote ecdhe nonce).transition crypto host
      false with
  | error exception => simp [run, hstart]
  | ok h =>
      simp only [run, hstart, ok_bind]
      exact secure_iff_of_stage crypto host events h
        (.of_start_transition hstart)

/-- Functions to compute with: what is sent is not encrypted, and every
signature is taken for one with the same key. -/
def plainHandshake : HandshakeCrypto where
  toCrypto := plainCrypto
  encryptECIES _ b := b
  decryptECIES _ b := some b
  sign _ _ := List.replicate 65 0
  recover _ _ := (plainKeys.ecdhe .initiator).pub

def plainHost : HandshakeHost where
  sec := RLP.alignRight 32 [1]
  pub := RLP.alignRight 64 [1]
  helloPacket := [0x80, 0xc0]

/-- An auth message in which there is no hash at all. -/
def unsignedAuth : Bytes := List.replicate 307 0

/-- The frame with the Hello packet of the peer that has sent it. -/
def unsignedHello : Bytes :=
  let own := plainKeys.ecdhe .recipient
  let ack := own.pub.data ++ (plainKeys.nonce .recipient).data ++ [0]
  let frame := do
    let coder ← RLPXFrameCoder.setup plainCrypto true own.pub
      (plainKeys.nonce .recipient) (plainKeys.ecdhe .initiator)
      (RLP.alignRight 32 []) ack unsignedAuth
    coder.writeSingleFramePacket plainCrypto [0x80, 0xc0]
  match frame with
  | .ok r => r.1
  | .error _ => []

/-- What the ingress side sees of that peer. -/
def unsignedEvents : List HandshakeEvent :=
  [.complete (some unsignedAuth) false, .complete (some []) false,
    .complete (some []) false,
    .complete (some (unsignedHello.take 32)) false,
    .complete (some (unsignedHello.drop 32)) false]

/-- The ingress side notes that the hash does not match, and starts the
session. -/
theorem session_despite_mismatch :
    ∃ t, (setup false (RLP.alignRight 64 []) (plainKeys.ecdhe .recipient)
        (plainKeys.nonce .recipient)).run plainHandshake plainHost
        unsignedEvents = .ok t ∧
      (HandshakeCheck.ephemeralHash, false) ∈ t.checks ∧ t.sessions = 1 ∧
      ¬ t.Secure := by
  have hend : (match (setup false (RLP.alignRight 64 [])
      (plainKeys.ecdhe .recipient) (plainKeys.nonce .recipient)).run
      plainHandshake plainHost unsignedEvents with
    | .ok t => decide ((HandshakeCheck.ephemeralHash, false) ∈ t.checks ∧
        t.sessions = 1)
    | .error _ => false) = true := by decide +kernel
  cases hrun : (setup false (RLP.alignRight 64 [])
      (plainKeys.ecdhe .recipient) (plainKeys.nonce .recipient)).run
      plainHandshake plainHost unsignedEvents with
  | error exception => simp [hrun] at hend
  | ok t =>
      simp only [hrun, decide_eq_true_eq] at hend
      obtain ⟨hcheck, hone⟩ := hend
      refine ⟨t, rfl, hcheck, hone, fun hsecure => ?_⟩
      have hnone := (hsecure.refused _ hcheck).2
      omega

end RLPXHandshake

end Web3Core
