/-
The cache of `SecretStore`: in any sequence of calls, whether a plaintext that
is kept is one of the encrypted key with its id.  Every operation keeps this but
the reading of key files, which replaces a key and leaves its plaintext.
-/
import Web3Core.SecretStoreKeys

namespace Web3Core

/-- A call of a store, with what is drawn at random in it and what the files
that it reads contain. -/
inductive StoreCall where
  | importSecret (s pass : Bytes) (r : H128) (salt : H256) (iv : H128)
  | importKey (file content : Bytes)
  | importKeyContent (content : Bytes)
  | readKey (file content : Bytes) (takeFileOwnership : Bool)
  | readKeyContent (content file : Bytes)
  | secret (uuid : H128) (pass : Bytes) (useCache : Bool)
  | recode (uuid : H128) (newPass pass : Bytes) (kdf : KDF) (salt : H256)
      (iv : H128)
  | kill (uuid : H128)
  | clearCache
  | save (path : Bytes)
  | load (files : List (Bytes × Bytes))

namespace StoreCall

variable (lib : StoreLibrary)

/-- The store after the call. -/
def apply (st : SecretStore) : StoreCall → SecretStore
  | importSecret s pass r salt iv =>
      (SecretStore.importSecret lib s pass r salt iv st).2
  | importKey file content => (SecretStore.importKey lib file content st).2
  | importKeyContent content =>
      (SecretStore.importKeyContent lib content st).2
  | readKey file content takeFileOwnership =>
      (SecretStore.readKey lib file content takeFileOwnership st).2
  | readKeyContent content file =>
      (SecretStore.readKeyContent lib content file st).2
  | secret uuid pass useCache =>
      (SecretStore.secret lib uuid pass useCache st).2
  | recode uuid newPass pass kdf salt iv =>
      (SecretStore.recode lib uuid newPass pass kdf salt iv st).2
  | kill uuid => (SecretStore.kill uuid st).2
  | clearCache => (SecretStore.clearCache st).2
  | save path => (SecretStore.save lib path st).2
  | load files => (SecretStore.load lib files st).2

/-- The passwords that are given with the call. -/
def passwords : StoreCall → List Bytes
  | importSecret _ pass _ _ _ => [pass]
  | secret _ pass _ => [pass]
  | recode _ newPass pass _ _ _ => [newPass, pass]
  | _ => []

end StoreCall

namespace SecretStore

variable {lib : StoreLibrary} {st st' : SecretStore} {used used' : List Bytes}
  {uuid : H128} {s pass content : Bytes}

/-- The stored key with an id contains a secret, under a password used. -/
def Contains (lib : StoreLibrary) (used : List Bytes) (st : SecretStore)
    (uuid : H128) (s : Bytes) : Prop :=
  ∃ content, st.encryptedKey? uuid = some content ∧
    ∃ p ∈ used, lib.decrypt content p = .ok s

/-- Every plaintext in the cache is contained in the stored key. -/
def Coherent (lib : StoreLibrary) (used : List Bytes) (st : SecretStore) :
    Prop :=
  ∀ uuid s, st.cached.lookup uuid = some s → Contains lib used st uuid s

theorem Contains.mono (h : Contains lib used st uuid s) (hused : used ⊆ used') :
    Contains lib used' st uuid s := by
  obtain ⟨content, hcontent, p, hp, hdecrypt⟩ := h
  exact ⟨content, hcontent, p, hused hp, hdecrypt⟩

theorem Coherent.mono (h : Coherent lib used st) (hused : used ⊆ used') :
    Coherent lib used' st :=
  fun uuid s hs => (h uuid s hs).mono hused

theorem Coherent.same (h : Coherent lib used st) (hsame : Same st st') :
    Coherent lib used st' := by
  intro uuid s hs
  rw [hsame.1] at hs
  obtain ⟨content, hcontent, hdecrypt⟩ := h uuid s hs
  exact ⟨content, (hsame.2 uuid).trans hcontent, hdecrypt⟩

theorem Coherent.caching (h : Coherent lib used st)
    (hcontains : Contains lib used st uuid s) :
    Coherent lib used (st.caching uuid s) := by
  rw [SecretStore.caching]
  split
  · exact h
  · intro v x hx
    by_cases hv : v = uuid
    · subst hv
      obtain rfl : s = x := by simpa using hx
      exact hcontains
    · exact h v x (by simpa [AList.lookup_insert_ne hv] using hx)

theorem Coherent.secret (h : Coherent lib used st) (uuid : H128)
    {pass : Bytes} (hpass : pass ∈ used) (useCache : Bool) :
    Coherent lib used (SecretStore.secret lib uuid pass useCache st).2 := by
  by_cases hskip : useCache = true → st.cached.lookup uuid = none
  · rw [secret_run hskip, secretOfKey_run]
    split
    · exact h
    · rename_i key hkey
      split
      · exact h
      · rename_i s hs
        refine h.caching ⟨key.encryptedKey, ?_, pass, hpass, hs⟩
        rw [encryptedKey?, hkey]
        rfl
  · rw [Classical.not_imp] at hskip
    obtain ⟨rfl, hcached⟩ := hskip
    obtain ⟨s, hs⟩ := Option.ne_none_iff_exists'.1 hcached
    rw [secret_run_cached hs]
    exact h

/-- What is not in the cache any more cannot be wrong. -/
theorem Coherent.erase (h : Coherent lib used st) (uuid : H128) :
    Coherent lib used { st with cached := st.cached.erase uuid } := by
  intro v x hx
  by_cases hv : v = uuid
  · subst hv
    simp at hx
  · exact h v x (by simpa [AList.lookup_erase_ne hv] using hx)

theorem Coherent.rekeyed (h : Coherent lib used st) (uuid : H128)
    (content : Bytes) : Coherent lib used (st.rekeyed uuid content) := by
  intro v x hx
  by_cases hv : v = uuid
  · subst hv
    simp [SecretStore.rekeyed] at hx
  · obtain ⟨old, hold, hdecrypt⟩ := h v x
      (by simpa [SecretStore.rekeyed, AList.lookup_erase_ne hv] using hx)
    refine ⟨old, ?_, hdecrypt⟩
    rw [encryptedKey?_rekeyed, if_neg hv, hold]

theorem Coherent.recode (h : Coherent lib used st) (uuid : H128)
    {newPass pass : Bytes} (hpass : pass ∈ used) (kdf : KDF) (salt : H256)
    (iv : H128) :
    Coherent lib used
      (SecretStore.recode lib uuid newPass pass kdf salt iv st).2 := by
  have hsecret := h.secret uuid hpass true
  match hrun : SecretStore.secret lib uuid pass true st with
  | (.error e, st') =>
      rw [hrun] at hsecret
      rw [SecretStore.recode, Stateful.bind_of_error hrun]
      exact hsecret
  | (.ok s, st') =>
      rw [hrun] at hsecret
      by_cases hs : s = []
      · rw [SecretStore.recode, Stateful.bind_of_ok hrun, if_pos hs]
        exact hsecret
      · cases hencrypt : lib.encrypt s newPass kdf salt iv with
        | error e =>
            rw [SecretStore.recode, Stateful.bind_of_ok hrun, if_neg hs]
            show Coherent lib used
              ((Stateful.ofResult (lib.encrypt s newPass kdf salt iv) >>= _)
                _).2
            rw [hencrypt]
            exact hsecret.erase uuid
        | ok content =>
            rw [recode_run hrun hs hencrypt]
            exact (hsecret.rekeyed uuid content).same (same_saved _ _)

/-- The store with a new key and its plaintext. -/
def imported (st : SecretStore) (r : H128) (s encryptedKey : Bytes) :
    SecretStore :=
  { st with
    cached := st.cached.insert r s
    keys := st.keys.insert r ⟨encryptedKey, []⟩ }

theorem importSecret_run {r : H128} {salt : H256} {iv : H128}
    (h : lib.encrypt s pass .scrypt salt iv = .ok content) :
    importSecret lib s pass r salt iv st =
      (.ok r, saved lib st.path (st.imported r s content)) := by
  show (Stateful.ofResult (lib.encrypt s pass .scrypt salt iv) >>= _) st = _
  rw [h]
  rfl

theorem importSecret_run_error {r : H128} {salt : H256} {iv : H128}
    {e : Exception} (h : lib.encrypt s pass .scrypt salt iv = .error e) :
    importSecret lib s pass r salt iv st = (.error e, st) := by
  show (Stateful.ofResult (lib.encrypt s pass .scrypt salt iv) >>= _) st = _
  rw [h]
  rfl

/-- Nothing is encrypted to nothing, which is refused. -/
theorem not_encrypt_nil (hlib : lib.Lawful) {kdf : KDF} {salt : H256}
    {iv : H128} : lib.encrypt [] pass kdf salt iv ≠ .ok content := by
  have hcipher : ∀ k : SecureFixedHash 16,
      lib.aes.encryptSymNoAuth k iv [] = [] := by
    intro k
    rw [AESCounter.encryptSymNoAuth, AESCounter.encryptAES128CTR,
      hlib.aes_nil, ite_self]
  rw [StoreLibrary.encrypt]
  split
  · simp
  · rw [if_pos (hcipher _)]
    simp

theorem Coherent.importSecret (h : Coherent lib used st) (hlib : lib.Lawful)
    (hshort : s.length < 2 ^ 31) (hpass : pass ∈ used) (r : H128)
    (salt : H256) (iv : H128) :
    Coherent lib used
      (SecretStore.importSecret lib s pass r salt iv st).2 := by
  cases hencrypt : lib.encrypt s pass .scrypt salt iv with
  | error e =>
      rw [importSecret_run_error hencrypt]
      exact h
  | ok content =>
      rw [importSecret_run hencrypt]
      refine Coherent.same ?_ (same_saved _ _)
      have hne : s ≠ [] := by
        rintro rfl
        exact not_encrypt_nil hlib hencrypt
      have hkey : ∀ v, (st.imported r s content).encryptedKey? v =
          if v = r then some content else st.encryptedKey? v :=
        encryptedKey?_insert st r _
      intro v x hx
      by_cases hv : v = r
      · subst hv
        obtain rfl : s = x := by simpa [imported] using hx
        exact ⟨content, (hkey v).trans (if_pos rfl), pass, hpass,
          hlib.decrypt_encrypt hne hshort hencrypt⟩
      · obtain ⟨old, hold, hdecrypt⟩ := h v x
          (by simpa [imported, AList.lookup_insert_ne hv] using hx)
        exact ⟨old, ((hkey v).trans (if_neg hv)).trans hold, hdecrypt⟩

theorem modify_run (f : SecretStore → SecretStore) (st : SecretStore) :
    (modify f : StoreProgram Unit) st = (.ok (), f st) := rfl

theorem Coherent.kill (h : Coherent lib used st) (uuid : H128) :
    Coherent lib used (SecretStore.kill uuid st).2 := by
  intro v x hx
  have hcached : (SecretStore.kill uuid st).2.cached =
      st.cached.erase uuid := by
    rw [SecretStore.kill, modify_run]
    dsimp only
    split <;> rfl
  have hkeys : ∀ w, w ≠ uuid →
      (SecretStore.kill uuid st).2.encryptedKey? w = st.encryptedKey? w := by
    intro w hw
    rw [SecretStore.kill, modify_run]
    dsimp only
    split
    · rfl
    · simp [encryptedKey?, AList.lookup_erase_ne hw]
  rw [hcached] at hx
  by_cases hv : v = uuid
  · subst hv
    simp at hx
  · obtain ⟨old, hold, hdecrypt⟩ := h v x
      (by simpa [AList.lookup_erase_ne hv] using hx)
    exact ⟨old, (hkeys v hv).trans hold, hdecrypt⟩

/-! Reading key files. -/

/-- The key file is for an id without a plaintext, or it has the encrypted key
that is stored already. -/
def Spares (lib : StoreLibrary) (st : SecretStore) (content : Bytes) : Prop :=
  ∀ uuid encryptedKey,
    lib.contentKey content = .ok (some (uuid, encryptedKey)) →
    st.cached.lookup uuid = none ∨
      ∃ old, st.encryptedKey? uuid = some old ∧
        lib.read old = lib.read encryptedKey

theorem decrypt_congr {content' : Bytes}
    (h : lib.read content = lib.read content') (pass : Bytes) :
    lib.decrypt content pass = lib.decrypt content' pass := by
  rw [StoreLibrary.decrypt, StoreLibrary.decrypt, h]

theorem readKeyContent_run (lib : StoreLibrary) (content file : Bytes)
    (st : SecretStore) :
    readKeyContent lib content file st =
      match lib.contentKey content with
      | .error e => (.error e, st)
      | .ok none => (.ok (FixedHash.zero 16), st)
      | .ok (some (uuid, encryptedKey)) => (.ok uuid,
          { st with keys := st.keys.insert uuid ⟨encryptedKey, file⟩ }) := by
  show (Stateful.ofResult (lib.contentKey content) >>= _) st = _
  cases lib.contentKey content with
  | error e => rfl
  | ok key => cases key <;> rfl

theorem Coherent.readKeyContent (h : Coherent lib used st)
    (hspares : Spares lib st content) (file : Bytes) :
    Coherent lib used (SecretStore.readKeyContent lib content file st).2 := by
  rw [readKeyContent_run]
  split
  · exact h
  · exact h
  · rename_i uuid encryptedKey hkey
    intro v x hx
    obtain ⟨old, hold, p, hp, hdecrypt⟩ := h v x hx
    by_cases hv : v = uuid
    · subst hv
      refine ⟨encryptedKey, (encryptedKey?_insert st v _ v).trans (if_pos rfl),
        p, hp, ?_⟩
      rcases hspares v encryptedKey hkey with hnone | ⟨old', hold', hread⟩
      · rw [hnone] at hx
        cases hx
      · obtain rfl := Option.some.inj (hold.symm.trans hold')
        rw [← decrypt_congr hread, hdecrypt]
    · exact ⟨old, ((encryptedKey?_insert st uuid _ v).trans
        (if_neg hv)).trans hold, p, hp, hdecrypt⟩

theorem same_saveIfRead (ret : H128) (st : SecretStore) :
    Same st (saveIfRead lib ret st).2 := by
  by_cases hret : ret ≠ FixedHash.zero 16
  · have hrun : saveIfRead lib ret st = (.ok ret, saved lib st.path st) := by
      show (if ret ≠ FixedHash.zero 16 then _ else _ : StoreProgram H128) st = _
      rw [if_pos hret]
      rfl
    rw [hrun]
    exact same_saved _ _
  · have hrun : saveIfRead lib ret st = (.ok ret, st) := by
      show (if ret ≠ FixedHash.zero 16 then _ else _ : StoreProgram H128) st = _
      rw [if_neg hret]
      rfl
    rw [hrun]
    exact .refl st

theorem Coherent.importKeyContent (h : Coherent lib used st)
    (hspares : Spares lib st content) :
    Coherent lib used (SecretStore.importKeyContent lib content st).2 := by
  have hread := h.readKeyContent hspares []
  match hrun : SecretStore.readKeyContent lib content [] st with
  | (.error e, st') =>
      rw [hrun] at hread
      rw [SecretStore.importKeyContent, Stateful.bind_of_error hrun]
      exact hread
  | (.ok ret, st') =>
      rw [hrun] at hread
      rw [SecretStore.importKeyContent, Stateful.bind_of_ok hrun]
      exact hread.same (same_saveIfRead ret st')

/-- The condition on the files of a directory, up to the one that ends
`load`. -/
def SparesAll (lib : StoreLibrary) (st : SecretStore) :
    List (Bytes × Bytes) → Prop
  | [] => True
  | file :: files => Spares lib st file.2 ∧
      match readKey lib file.1 file.2 true st with
      | (.ok _, st') => SparesAll lib st' files
      | (.error _, _) => True

theorem Coherent.load {files : List (Bytes × Bytes)}
    (h : Coherent lib used st) (hspares : SparesAll lib st files) :
    Coherent lib used (SecretStore.load lib files st).2 := by
  induction files generalizing st with
  | nil => exact h
  | cons file files ih =>
      obtain ⟨hfile, hrest⟩ := hspares
      have hread := h.readKeyContent hfile file.1
      have hsame : SecretStore.readKey lib file.1 file.2 true st =
          SecretStore.readKeyContent lib file.2 file.1 st := rfl
      rw [hsame] at hrest
      rw [SecretStore.load]
      beta_reduce
      rw [hsame]
      rcases hrun : SecretStore.readKeyContent lib file.2 file.1 st with
        ⟨e | ret, st'⟩
      · rw [hrun] at hread
        cases e <;> exact hread
      · rw [hrun] at hrest hread
        exact ih hread hrest

end SecretStore

/-! Sequences of calls. -/

namespace StoreCall

variable {lib : StoreLibrary} {st : SecretStore} {used : List Bytes}
  {calls pre : List StoreCall}

/-- The call leaves no plaintext behind that is not of its key: a key that it
reads replaces none with a plaintext, and a secret that it imports can be
decrypted again. -/
def Careful (lib : StoreLibrary) (st : SecretStore) : StoreCall → Prop
  | importSecret s _ _ _ _ => s.length < 2 ^ 31
  | importKey _ content => SecretStore.Spares lib st content
  | importKeyContent content => SecretStore.Spares lib st content
  | readKey _ content _ => SecretStore.Spares lib st content
  | readKeyContent content _ => SecretStore.Spares lib st content
  | load files => SecretStore.SparesAll lib st files
  | _ => True

/-- One call. -/
theorem Careful.coherent {call : StoreCall} (h : call.Careful lib st)
    (hlib : lib.Lawful) (hst : SecretStore.Coherent lib used st)
    (hused : call.passwords ⊆ used) :
    SecretStore.Coherent lib used (call.apply lib st) := by
  cases call with
  | importSecret s pass r salt iv =>
      exact hst.importSecret hlib h (hused List.mem_cons_self) r salt iv
  | importKey file content => exact hst.importKeyContent h
  | importKeyContent content => exact hst.importKeyContent h
  | readKey file content takeFileOwnership => exact hst.readKeyContent h _
  | readKeyContent content file => exact hst.readKeyContent h file
  | secret uuid pass useCache =>
      exact hst.secret uuid (hused List.mem_cons_self) useCache
  | recode uuid newPass pass kdf salt iv =>
      exact hst.recode uuid (hused (List.mem_cons_of_mem _ List.mem_cons_self))
        kdf salt iv
  | kill uuid => exact hst.kill uuid
  | clearCache =>
      intro uuid s hs
      cases hs
  | save path => exact hst.same (SecretStore.same_saved path st)
  | load files => exact hst.load h

/-- The store after a sequence of calls, from an empty one. -/
def after (lib : StoreLibrary) (path : Bytes) (calls : List StoreCall) :
    SecretStore :=
  calls.foldl (apply lib) { path }

/-- The passwords that are given in a sequence of calls. -/
def givenIn (calls : List StoreCall) : List Bytes := calls.flatMap passwords

/-- Every call is careful in the store it is made in. -/
def CarefulFrom (lib : StoreLibrary) : SecretStore → List StoreCall → Prop
  | _, [] => True
  | st, call :: calls =>
      call.Careful lib st ∧ CarefulFrom lib (call.apply lib st) calls

/-- Careful calls keep a store coherent, however many are made. -/
theorem CarefulFrom.coherent (h : CarefulFrom lib st calls)
    (hlib : lib.Lawful) (hst : SecretStore.Coherent lib used st)
    (hpre : pre <+: calls) :
    SecretStore.Coherent lib (used ++ givenIn pre)
      (pre.foldl (apply lib) st) := by
  induction calls generalizing st used pre with
  | nil =>
      obtain rfl := List.prefix_nil.1 hpre
      simpa [givenIn] using hst
  | cons call calls ih =>
      cases pre with
      | nil => simpa [givenIn] using hst
      | cons call' pre =>
          obtain ⟨rfl, hleft⟩ := List.cons_prefix_cons.1 hpre
          have hstep : SecretStore.Coherent lib (used ++ call'.passwords)
              (call'.apply lib st) :=
            h.1.coherent hlib (hst.mono (List.subset_append_left _ _))
              (List.subset_append_right _ _)
          have hrest := ih h.2 hstep hleft
          rwa [List.append_assoc] at hrest

/-- What `secret` returns from a coherent store is in the stored key. -/
theorem contains_of_secret (h : SecretStore.Coherent lib used st)
    {uuid : H128} {pass s : Bytes} (hne : s ≠ [])
    (hsecret : (SecretStore.secret lib uuid pass true st).1 = .ok s) :
    SecretStore.Contains lib (pass :: used) st uuid s := by
  cases hcached : st.cached.lookup uuid with
  | some x =>
      rw [SecretStore.secret_run_cached hcached] at hsecret
      obtain rfl := Except.ok.inj hsecret
      exact (h uuid x hcached).mono (List.subset_cons_self _ _)
  | none =>
      rw [SecretStore.secret_run fun _ => hcached,
        SecretStore.secretOfKey_run] at hsecret
      split at hsecret
      · exact absurd (Except.ok.inj hsecret).symm hne
      · rename_i key hkey
        split at hsecret
        · cases hsecret
        · rename_i x hx
          obtain rfl := Except.ok.inj hsecret
          refine ⟨key.encryptedKey, ?_, pass, List.mem_cons_self, hx⟩
          rw [SecretStore.encryptedKey?, hkey]
          rfl

/-- **The cache.**  In a sequence of careful calls every plaintext that is kept
is one of the stored key with its id, under a password given before; so what
`secret` returns is in the stored key. -/
theorem cache_coherent (hlib : lib.Lawful) (path : Bytes)
    (h : CarefulFrom lib { path } calls) :
    ∀ pre, pre <+: calls →
      SecretStore.Coherent lib (givenIn pre) (after lib path pre) ∧
      ∀ uuid pass s, s ≠ [] →
        (SecretStore.secret lib uuid pass true (after lib path pre)).1 =
          .ok s →
        SecretStore.Contains lib (pass :: givenIn pre) (after lib path pre)
          uuid s := by
  intro pre hpre
  have hempty : SecretStore.Coherent lib [] { path } := by
    intro uuid s hs
    cases hs
  have hcoherent := h.coherent hlib hempty hpre
  exact ⟨hcoherent, fun uuid pass s hne hsecret =>
    contains_of_secret hcoherent hne hsecret⟩

/-- The id of a key file. -/
def staleId : H128 := FixedHash.fromBytes 16 [1] .right

/-- A key file for that id, without anything that could be decrypted. -/
def staleContent (lib : StoreLibrary) : Bytes :=
  lib.writeString (.obj (JSObject.nil.set "crypto" (.obj .nil)
    |>.set "id" (.str (toUUID staleId))
    |>.set "version" (.int 3))) false

/-- The encrypted key in that file is an empty object. -/
theorem exists_contentKey_stale (hlib : lib.Lawful) :
    ∃ key, lib.contentKey (staleContent lib) = .ok (some (staleId, key)) ∧
      lib.read key = .obj .nil := by
  have hid : fromUUID (toUUID staleId) = .ok staleId := by decide +kernel
  have hread : lib.read (staleContent lib) = .obj (JSObject.nil.set "crypto"
      (.obj .nil) |>.set "id" (.str (toUUID staleId))
        |>.set "version" (.int 3)) := by
    rw [StoreLibrary.read, staleContent, hlib.read_write, Option.getD_some]
  have hupgraded : lib.upgraded (staleContent lib) = .ok (some
      (JSObject.nil.set "crypto" (.obj .nil)
        |>.set "id" (.str (toUUID staleId)) |>.set "version" (.int 3))) := by
    rw [StoreLibrary.upgraded, hread]
    rfl
  refine ⟨lib.writeString (.obj .nil) false, ?_, ?_⟩
  · rw [StoreLibrary.contentKey, hupgraded, ok_bind]
    show (fromUUID (toUUID staleId) >>= fun uuid => _) = _
    rw [hid]
    rfl
  · rw [StoreLibrary.read, hlib.read_write, Option.getD_some]

/-- A secret is imported, and then the key file. -/
def importCalls (lib : StoreLibrary) (uuid : H128) (s : Bytes) :
    List StoreCall :=
  [.importSecret s [5] uuid (FixedHash.zero 32) (FixedHash.zero 16),
    .importKeyContent (staleContent lib)]

/-- What is in the cache after the first call and after both, and the key that
the second one leaves. -/
theorem after_imports (hlib : lib.Lawful) (uuid : H128) {s : Bytes}
    (hs : s ≠ []) :
    (apply lib { path := [] } (.importSecret s [5] uuid (FixedHash.zero 32)
        (FixedHash.zero 16))).cached = AList.insert uuid s ∅ ∧
      (after lib [] (importCalls lib uuid s)).cached = AList.insert uuid s ∅ ∧
      ∃ key, (after lib [] (importCalls lib uuid s)).encryptedKey? staleId =
        some key ∧ lib.read key = .obj .nil := by
  obtain ⟨content, hcontent⟩ : ∃ content, lib.encrypt s [5] .scrypt
      (FixedHash.zero 32) (FixedHash.zero 16) = .ok content :=
    ⟨_, hlib.encrypt_eq hs⟩
  obtain ⟨key, hkey, hobject⟩ := exists_contentKey_stale hlib
  obtain ⟨st, hst, himported⟩ : ∃ st : SecretStore,
      (SecretStore.importSecret lib s [5] uuid (FixedHash.zero 32)
        (FixedHash.zero 16) { path := [] }).2 = st ∧
        st.cached = AList.insert uuid s ∅ := by
    refine ⟨_, rfl, ?_⟩
    rw [SecretStore.importSecret_run hcontent, (SecretStore.same_saved _ _).1]
    rfl
  have hread : SecretStore.readKeyContent lib (staleContent lib) [] st =
      (.ok staleId, { st with keys := st.keys.insert staleId ⟨key, []⟩ }) := by
    rw [SecretStore.readKeyContent_run, hkey]
  have hafter : after lib [] (importCalls lib uuid s) =
      (SecretStore.saveIfRead lib staleId
        { st with keys := st.keys.insert staleId ⟨key, []⟩ }).2 := by
    show (SecretStore.importKeyContent lib (staleContent lib)
      (SecretStore.importSecret lib s [5] uuid (FixedHash.zero 32)
        (FixedHash.zero 16) { path := [] }).2).2 = _
    rw [hst, SecretStore.importKeyContent, Stateful.bind_of_ok hread]
  have hsame := @SecretStore.same_saveIfRead lib staleId
    { st with keys := st.keys.insert staleId ⟨key, []⟩ }
  rw [← hafter] at hsame
  refine ⟨(congrArg SecretStore.cached hst).trans himported,
    hsame.1.trans himported, key, ?_, hobject⟩
  rw [hsame.2, SecretStore.encryptedKey?_insert, if_pos rfl]

/-- The key file is another one than that of the secret, which stays in the
cache and is given back. -/
theorem cache_coherent_spared :
    (SecretStore.secret plainStore (FixedHash.zero 16) [] true
        (after plainStore [] (importCalls plainStore (FixedHash.zero 16)
          [1, 2]))).1 = .ok [1, 2] ∧
      SecretStore.Contains plainStore ([] :: givenIn (importCalls plainStore
          (FixedHash.zero 16) [1, 2]))
        (after plainStore [] (importCalls plainStore (FixedHash.zero 16)
          [1, 2])) (FixedHash.zero 16) [1, 2] := by
  obtain ⟨hfirst, hcached, -⟩ := after_imports lawful_plainStore
    (FixedHash.zero 16) (show ([1, 2] : Bytes) ≠ [] by decide)
  have hspares : SecretStore.Spares plainStore (apply plainStore { path := [] }
      (.importSecret [1, 2] [5] (FixedHash.zero 16) (FixedHash.zero 32)
        (FixedHash.zero 16))) (staleContent plainStore) := by
    intro uuid encryptedKey hread
    obtain ⟨key, hkey, -⟩ := exists_contentKey_stale lawful_plainStore
    rw [hkey] at hread
    cases hread
    rw [hfirst, AList.lookup_insert_ne (by decide)]
    exact .inl rfl
  have hsecret : (SecretStore.secret plainStore (FixedHash.zero 16) [] true
      (after plainStore [] (importCalls plainStore (FixedHash.zero 16)
        [1, 2]))).1 = .ok [1, 2] := by
    rw [SecretStore.secret_run_cached (by rw [hcached, AList.lookup_insert])]
  have hcareful : CarefulFrom plainStore { path := [] }
      (importCalls plainStore (FixedHash.zero 16) [1, 2]) := by
    refine ⟨?_, hspares, trivial⟩
    show ([1, 2] : Bytes).length < 2 ^ 31
    decide
  obtain ⟨-, hcontains⟩ := cache_coherent lawful_plainStore [] hcareful _
    List.prefix_rfl
  exact ⟨hsecret, hcontains _ _ _ (by simp) hsecret⟩

/-- A secret is imported, and then a key file with its id. -/
def staleCalls (lib : StoreLibrary) : List StoreCall :=
  [.importSecret [1] [5] staleId (FixedHash.zero 32) (FixedHash.zero 16),
    .importKeyContent (staleContent lib)]

/-- What the calls leave: the plaintext of the key that was replaced, and a
key without it. -/
theorem after_stale (hlib : lib.Lawful) :
    (after lib [] (staleCalls lib)).cached.lookup staleId = some [1] ∧
      ∃ key, (after lib [] (staleCalls lib)).encryptedKey? staleId = some key ∧
        lib.read key = .obj .nil := by
  obtain ⟨-, hcached, hkey⟩ := after_imports hlib staleId
    (show ([1] : Bytes) ≠ [] by decide)
  have hcalls : staleCalls lib = importCalls lib staleId [1] := rfl
  rw [hcalls]
  exact ⟨by rw [hcached, AList.lookup_insert], hkey⟩

theorem stale_secret (hlib : lib.Lawful) :
    (SecretStore.secret lib staleId [] true
        (after lib [] (staleCalls lib))).1 = .ok [1] ∧
      ∀ used, ¬ SecretStore.Contains lib used
        (after lib [] (staleCalls lib)) staleId [1] := by
  obtain ⟨hcached, key, hkey, hobject⟩ := after_stale hlib
  refine ⟨by rw [SecretStore.secret_run_cached hcached], ?_⟩
  rintro used ⟨stored, hstored, p, -, hdecrypt⟩
  obtain rfl := Option.some.inj (hstored.symm.trans hkey)
  rw [StoreLibrary.decrypt, hobject] at hdecrypt
  cases hdecrypt

/-- The plaintext of a key that was replaced is still returned, and it is not
in the key. -/
theorem not_cache_coherent :
    plainStore.Lawful ∧
    (SecretStore.secret plainStore staleId [] true
        (after plainStore [] (staleCalls plainStore))).1 = .ok [1] ∧
      ∀ used, ¬ SecretStore.Contains plainStore used
        (after plainStore [] (staleCalls plainStore)) staleId [1] :=
  ⟨lawful_plainStore, stale_secret lawful_plainStore⟩

end StoreCall

end Web3Core
