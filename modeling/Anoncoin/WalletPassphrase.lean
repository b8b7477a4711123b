import Anoncoin.KeyStore

/-!
Unlocking a wallet with a passphrase and changing the passphrase (wallet.cpp, crypter.h,
crypter.cpp). The derivation of a key from a passphrase is OpenSSL's and the counts that the
clock gives are any; both are parameters.
-/

set_option autoImplicit false

namespace Anoncoin
open Lib

def WALLET_CRYPTO_SALT_SIZE : Nat := 8

structure CMasterKey where
  vchCryptedKey : List UInt8
  vchSalt : List UInt8
  nDerivationMethod : Uint32
  nDeriveIterations : Uint32
  vchOtherDerivationParameters : List UInt8
  deriving DecidableEq, Repr

/-- The master keys with their numbers, in the order of the numbers. -/
abbrev MasterKeyMap := List (Uint32 × CMasterKey)

/-- What OpenSSL computes: besides the cipher, the key and the initial vector of a salt, a
passphrase and a count of rounds, unless it returns another size than the key's, and what an
encryption that fails leaves in its buffer. -/
structure PassphraseCrypto extends KeyCrypto where
  bytesToKey : List UInt8 → List UInt8 → Uint32 → Option (List UInt8 × List UInt8)
  leftover : List UInt8 → List UInt8 → List UInt8 → List UInt8

/-- The count of iterations that the time of each of the two derivations gives for the count
before, and whether the database takes the record. -/
structure ChangeEnv where
  timedFirst : Uint32 → Uint32
  timedSecond : Uint32 → Uint32
  fWritten : Bool

structure CCrypter where
  chKey : List UInt8
  chIV : List UInt8
  fKeySet : Bool
  deriving DecidableEq, Repr

/-- The wallet's part of the key store, its master keys and their records in the database. -/
structure PassphraseWallet where
  store : CCryptoKeyStore
  mapMasterKeys : MasterKeyMap
  records : AList fun _ : Uint32 => CMasterKey

section Model
variable (crypto : PassphraseCrypto) (env : ChangeEnv)

namespace CCrypter

def cleansed : List UInt8 := List.replicate WALLET_CRYPTO_KEY_SIZE 0

def create : CCrypter := ⟨cleansed,cleansed,false⟩

def setKeyFromPassphrase (crypter : CCrypter) (strKeyData chSalt : List UInt8)
    (nRounds nDerivationMethod : Uint32) : Bool × CCrypter :=
  if nRounds < 1 ∨ chSalt.length ≠ WALLET_CRYPTO_SALT_SIZE then (false,crypter)
  else
    match if nDerivationMethod = 0 then crypto.bytesToKey chSalt strKeyData nRounds else none with
    | none => (false,{ crypter with chKey := cleansed, chIV := cleansed })
    | some (chKey,chIV) => (true,⟨chKey,chIV,true⟩)

/-- With the ciphertext buffer, which a missing key leaves as it is. -/
def encrypt (crypter : CCrypter) (vchPlaintext : CKeyingMaterial) (vchCiphertext : List UInt8) :
    Bool × List UInt8 :=
  if !crypter.fKeySet then (false,vchCiphertext)
  else
    match crypto.encrypt crypter.chKey crypter.chIV vchPlaintext with
    | none => (false,crypto.leftover crypter.chKey crypter.chIV vchPlaintext)
    | some vchCiphertext => (true,vchCiphertext)

def decrypt (crypter : CCrypter) (vchCiphertext : List UInt8) : Option CKeyingMaterial :=
  if !crypter.fKeySet then none else crypto.decrypt crypter.chKey crypter.chIV vchCiphertext

/-- The passphrase and what the master key says about its derivation. -/
def setKeyFor (crypter : CCrypter) (pass : List UInt8) (m : CMasterKey) : Bool × CCrypter :=
  crypter.setKeyFromPassphrase crypto pass m.vchSalt m.nDeriveIterations m.nDerivationMethod

end CCrypter

/-- The new count of iterations, then the opened key under the new passphrase. The results of
the two timed derivations are ignored. -/
def rekey (crypter : CCrypter) (strNewWalletPassphrase : List UInt8) (m : CMasterKey)
    (vMasterKey : CKeyingMaterial) : Bool × CMasterKey :=
  let crypter := (crypter.setKeyFor crypto strNewWalletPassphrase m).2
  let m := { m with nDeriveIterations := env.timedFirst m.nDeriveIterations }
  let crypter := (crypter.setKeyFor crypto strNewWalletPassphrase m).2
  let m := { m with nDeriveIterations := env.timedSecond m.nDeriveIterations }
  let m := if m.nDeriveIterations < 25000 then { m with nDeriveIterations := 25000 } else m
  match crypter.setKeyFor crypto strNewWalletPassphrase m with
  | (false,_) => (false,m)
  | (true,crypter) =>
    let (fEncrypted,vchCryptedKey) := crypter.encrypt crypto vMasterKey m.vchCryptedKey
    (fEncrypted,{ m with vchCryptedKey := vchCryptedKey })

namespace PassphraseWallet

/-- The loop of `CWallet::Unlock`. -/
def unlockLoop (strWalletPassphrase : List UInt8) :
    CCrypter → MasterKeyMap → CCryptoKeyStore → Option (Bool × CCryptoKeyStore)
  | _,[],s => some (false,s)
  | crypter,(_,m) :: rest,s =>
    match crypter.setKeyFor crypto strWalletPassphrase m with
    | (false,_) => some (false,s)
    | (true,crypter) =>
      match crypter.decrypt crypto m.vchCryptedKey with
      | none => unlockLoop strWalletPassphrase crypter rest s
      | some vMasterKey =>
        match s.unlock crypto.toKeyCrypto vMasterKey with
        | none => none
        | some (true,s) => some (true,s)
        | some (false,s) => unlockLoop strWalletPassphrase crypter rest s

/-- There is no result when an assertion fails. -/
def unlock (w : PassphraseWallet) (strWalletPassphrase : List UInt8) :
    Option (Bool × PassphraseWallet) :=
  (unlockLoop crypto strWalletPassphrase .create w.mapMasterKeys w.store).map fun result =>
    (result.1,{ w with store := result.2 })

/-- `WriteMasterKey`, whose result the caller ignores. -/
def writeMasterKey (w : PassphraseWallet) (nID : Uint32) (m : CMasterKey) : PassphraseWallet :=
  if env.fWritten then { w with records := w.records.insert nID m } else w

/-- The loop of `ChangeWalletPassphrase`, with the master keys before the one it is at. -/
def changeLoop (fWasLocked : Bool) (strOldWalletPassphrase strNewWalletPassphrase : List UInt8) :
    CCrypter → MasterKeyMap → MasterKeyMap → PassphraseWallet → Option (Bool × PassphraseWallet)
  | _,_,[],w => some (false,w)
  | crypter,before,(nID,m) :: after,w =>
    match crypter.setKeyFor crypto strOldWalletPassphrase m with
    | (false,_) => some (false,w)
    | (true,crypter) =>
      match crypter.decrypt crypto m.vchCryptedKey with
      | none => some (false,w)
      | some vMasterKey =>
        match w.store.unlock crypto.toKeyCrypto vMasterKey with
        | none => none
        | some (false,store) =>
          changeLoop fWasLocked strOldWalletPassphrase strNewWalletPassphrase crypter
            (before ++ [(nID,m)]) after { w with store := store }
        | some (true,store) =>
          let (fChanged,m) := rekey crypto env crypter strNewWalletPassphrase m vMasterKey
          let w := { w with store := store, mapMasterKeys := before ++ (nID,m) :: after }
          if !fChanged then some (false,w)
          else
            let w := w.writeMasterKey env nID m
            some (true,if fWasLocked then { w with store := w.store.lock.2 } else w)

def changeWalletPassphrase (w : PassphraseWallet)
    (strOldWalletPassphrase strNewWalletPassphrase : List UInt8) :
    Option (Bool × PassphraseWallet) :=
  changeLoop crypto env w.store.isLocked strOldWalletPassphrase strNewWalletPassphrase .create []
    w.mapMasterKeys { w with store := w.store.lock.2 }

end PassphraseWallet

/-- Whether a candidate opens the first encrypted key; there is no result when an assertion
fails. -/
def CCryptoKeyStore.fits (s : CCryptoKeyStore) (vMasterKeyIn : CKeyingMaterial) : Option Bool :=
  match s.firstCrypted with
  | none => some true
  | some (vchPubKey,vchCryptedSecret) =>
    opens crypto.toKeyCrypto vMasterKeyIn vchPubKey vchCryptedSecret

def CMasterKey.derive (m : CMasterKey) (pass : List UInt8) : Option (List UInt8 × List UInt8) :=
  if m.nDeriveIterations < 1 ∨ m.vchSalt.length ≠ WALLET_CRYPTO_SALT_SIZE ∨ m.nDerivationMethod ≠ 0
  then none else crypto.bytesToKey m.vchSalt pass m.nDeriveIterations

/-- What comes of a passphrase at one master key: no key is derived from it, the key decrypts
nothing, the key store fails an assertion on the candidate, refuses it, or is opened by it. -/
inductive Attempt where
  | underivable | undecryptable | aborted | refused
  | opened (vMasterKey : CKeyingMaterial)
  deriving DecidableEq, Repr

def CCryptoKeyStore.attempt (s : CCryptoKeyStore) (pass : List UInt8) (m : CMasterKey) : Attempt :=
  match m.derive crypto pass with
  | none => .underivable
  | some (chKey,chIV) =>
    match crypto.decrypt chKey chIV m.vchCryptedKey with
    | none => .undecryptable
    | some vMasterKey =>
      match s.fits crypto vMasterKey with
      | none => .aborted
      | some false => .refused
      | some true => .opened vMasterKey

/-- The master keys after which each of the two loops goes on. -/
def CCryptoKeyStore.refuses (s : CCryptoKeyStore) (pass : List UInt8) (e : Uint32 × CMasterKey) :
    Bool :=
  s.attempt crypto pass e.2 == .refused

def CCryptoKeyStore.passesOver (s : CCryptoKeyStore) (pass : List UInt8)
    (e : Uint32 × CMasterKey) : Bool :=
  s.refuses crypto pass e || s.attempt crypto pass e.2 == .undecryptable

/-- Whether the key store is open after an unlocking that stops at the master key. -/
def CCryptoKeyStore.opensAt (s : CCryptoKeyStore) (pass : List UInt8) (m : CMasterKey) : Bool :=
  match s.attempt crypto pass m with
  | .opened vMasterKey => !vMasterKey.isEmpty
  | _ => false

def CMasterKey.retimed (m : CMasterKey) : CMasterKey :=
  let n := env.timedSecond (env.timedFirst m.nDeriveIterations)
  { m with nDeriveIterations := if n < 25000 then 25000 else n }

/-- What the claim of an unchanged wallet says of one call: after a failure the lock state, the
master keys and their records are the same; after a success the lock state is the same and the
new passphrase unlocks the wallet. -/
def PassphraseWallet.Restores (w : PassphraseWallet)
    (strOldWalletPassphrase strNewWalletPassphrase : List UInt8) : Prop :=
  ∀ fRet w', w.changeWalletPassphrase crypto env strOldWalletPassphrase strNewWalletPassphrase =
      some (fRet,w') →
    (fRet = false → w'.store.isLocked = w.store.isLocked ∧ w'.mapMasterKeys = w.mapMasterKeys ∧
      w'.records = w.records) ∧
    (fRet = true → w'.store.isLocked = w.store.isLocked ∧
      ∃ w'', w'.unlock crypto strNewWalletPassphrase = some (true,w'') ∧
        w''.store.isLocked = false)

/-- Whether the call keeps its promise, by where it ends: at an exit before the key store is
opened (also behind the last master key), at one behind it when OpenSSL gives no key or no
ciphertext, or with a new passphrase, which also has to get past the master keys before. -/
def PassphraseWallet.keepsPromise (w : PassphraseWallet)
    (strOldWalletPassphrase strNewWalletPassphrase : List UInt8) : Bool :=
  match w.mapMasterKeys.dropWhile (w.store.refuses crypto strOldWalletPassphrase) with
  | [] => w.store.isLocked
  | (_,m) :: _ =>
    match w.store.attempt crypto strOldWalletPassphrase m with
    | .aborted => true
    | .opened vMasterKey =>
      match rekey crypto env .create strNewWalletPassphrase m vMasterKey with
      | (false,m') => decide (m' = m) && (w.store.isLocked == vMasterKey.isEmpty)
      | (true,_) =>
        (w.store.isLocked || !vMasterKey.isEmpty) &&
        let before := w.mapMasterKeys.takeWhile (w.store.refuses crypto strOldWalletPassphrase)
        match before.dropWhile (w.store.passesOver crypto strNewWalletPassphrase) with
        | [] => !vMasterKey.isEmpty
        | (_,m) :: _ => w.store.opensAt crypto strNewWalletPassphrase m
    | _ => w.store.isLocked

/-- What the code relies on: what a key encrypts the same key decrypts. -/
def PassphraseCrypto.Decrypts : Prop :=
  ∀ chKey chIV plain cipher, crypto.encrypt chKey chIV plain = some cipher →
    crypto.decrypt chKey chIV cipher = some plain

def PassphraseWallet.locked (w : PassphraseWallet) : PassphraseWallet :=
  { w with store := { w.store with vMasterKey := [] } }

/-- What an attempt says about the statements of a round of either loop. -/
def Attempt.Tried (s : CCryptoKeyStore) (pass : List UInt8) (m : CMasterKey) (crypter : CCrypter) :
    Attempt → Prop
  | .underivable => ∃ crypter', crypter.setKeyFor crypto pass m = (false,crypter')
  | .undecryptable => ∃ crypter', crypter.setKeyFor crypto pass m = (true,crypter') ∧
      crypter'.decrypt crypto m.vchCryptedKey = none
  | .aborted => ∃ crypter' vMasterKey, crypter.setKeyFor crypto pass m = (true,crypter') ∧
      crypter'.decrypt crypto m.vchCryptedKey = some vMasterKey ∧
      s.unlock crypto.toKeyCrypto vMasterKey = none
  | .refused => ∃ crypter' vMasterKey, crypter.setKeyFor crypto pass m = (true,crypter') ∧
      crypter'.decrypt crypto m.vchCryptedKey = some vMasterKey ∧
      s.unlock crypto.toKeyCrypto vMasterKey = some (false,s)
  | .opened vMasterKey => ∃ crypter', crypter.setKeyFor crypto pass m = (true,crypter') ∧
      crypter'.decrypt crypto m.vchCryptedKey = some vMasterKey ∧
      s.unlock crypto.toKeyCrypto vMasterKey = some (true,{ s with vMasterKey := vMasterKey })

/-- `CWallet::Unlock` and `ChangeWalletPassphrase` where their loops stop. -/
def Attempt.unlocks (s : CCryptoKeyStore) : Attempt → Option (Bool × CCryptoKeyStore)
  | .aborted => none
  | .opened vMasterKey => some (true,{ s with vMasterKey := vMasterKey })
  | _ => some (false,s)

def PassphraseWallet.conclude (w : PassphraseWallet) (fWasLocked : Bool)
    (strNewWalletPassphrase : List UInt8) (before after : MasterKeyMap) (nID : Uint32)
    (m : CMasterKey) : Attempt → Option (Bool × PassphraseWallet)
  | .aborted => none
  | .opened vMasterKey =>
    let (fChanged,m) := rekey crypto env .create strNewWalletPassphrase m vMasterKey
    let w := { w with
      store := { w.store with vMasterKey := vMasterKey }
      mapMasterKeys := before ++ (nID,m) :: after }
    if !fChanged then some (false,w)
    else
      let w := w.writeMasterKey env nID m
      some (true,if fWasLocked then { w with store := w.store.lock.2 } else w)
  | _ => some (false,w)

variable {crypto env}
variable {s : CCryptoKeyStore} {w : PassphraseWallet} {pass old new : List UInt8} {m : CMasterKey}

namespace CCrypter

theorem setKeyFor_some {chKey chIV : List UInt8} (crypter : CCrypter)
    (h : m.derive crypto pass = some (chKey,chIV)) :
    crypter.setKeyFor crypto pass m = (true,⟨chKey,chIV,true⟩) := by
  simp only [CMasterKey.derive,ite_eq_iff,reduceCtorEq,and_false,false_or,not_or] at h
  obtain ⟨⟨hrounds,hsalt,hmethod⟩,h⟩ := h
  simp only [setKeyFor,setKeyFromPassphrase,if_neg (not_or.mpr ⟨hrounds,hsalt⟩),
    if_pos (not_not.mp hmethod),h]

theorem setKeyFor_none (crypter : CCrypter) (h : m.derive crypto pass = none) :
    ∃ crypter', crypter.setKeyFor crypto pass m = (false,crypter') := by
  by_cases hearly : m.nDeriveIterations < 1 ∨ m.vchSalt.length ≠ WALLET_CRYPTO_SALT_SIZE
  · exact ⟨crypter,if_pos hearly⟩
  · by_cases hmethod : m.nDerivationMethod = 0
    · rw [CMasterKey.derive,if_neg (by tauto)] at h
      exact ⟨_,by simp only [setKeyFor,setKeyFromPassphrase,if_neg hearly,if_pos hmethod,h]; rfl⟩
    · exact ⟨_,by simp only [setKeyFor,setKeyFromPassphrase,if_neg hearly,if_neg hmethod]; rfl⟩

end CCrypter

/-- What the new passphrase makes of the master key does not depend on the keys derived before. -/
theorem rekey_eq (crypter : CCrypter) (vMasterKey : CKeyingMaterial) :
    rekey crypto env crypter new m vMasterKey =
      match (m.retimed env).derive crypto new with
      | none => (false,m.retimed env)
      | some (chKey,chIV) =>
        match crypto.encrypt chKey chIV vMasterKey with
        | none => (false,{ m.retimed env with vchCryptedKey := crypto.leftover chKey chIV vMasterKey })
        | some cipher => (true,{ m.retimed env with vchCryptedKey := cipher }) := by
  have hretimed : (if env.timedSecond (env.timedFirst m.nDeriveIterations) < 25000
      then { m with nDeriveIterations := 25000 }
      else { m with nDeriveIterations := env.timedSecond (env.timedFirst m.nDeriveIterations) }) =
        m.retimed env := by
    rw [CMasterKey.retimed]
    split <;> rfl
  simp only [rekey,hretimed]
  cases hderive : (m.retimed env).derive crypto new with
  | none =>
    obtain ⟨crypter',hset⟩ := CCrypter.setKeyFor_none _ hderive
    rw [hset]
  | some key =>
    obtain ⟨chKey,chIV⟩ := key
    rw [CCrypter.setKeyFor_some _ hderive]
    cases hcipher : crypto.encrypt chKey chIV vMasterKey with
    | none => simp [CCrypter.encrypt,hcipher]
    | some cipher => simp [CCrypter.encrypt,hcipher]

namespace CCryptoKeyStore

theorem unlock_eq (huse : s.fUseCrypto = true) (vMasterKeyIn : CKeyingMaterial) :
    s.unlock crypto.toKeyCrypto vMasterKeyIn = (s.fits crypto vMasterKeyIn).map fun fits =>
      if fits then (true,{ s with vMasterKey := vMasterKeyIn }) else (false,s) := by
  simp only [unlock,setCrypted,huse,if_pos,fits]
  cases s.firstCrypted with
  | none => rfl
  | some entry => rfl

theorem lock_eq (huse : s.fUseCrypto = true) : s.lock = (true,{ s with vMasterKey := [] }) := by
  simp [lock,setCrypted,huse]

theorem isLocked_eq (huse : s.fUseCrypto = true) : s.isLocked = s.vMasterKey.isEmpty := by
  simp [isLocked,isCrypted,huse]

/-- What comes of a passphrase depends only on the encrypted keys. -/
theorem attempt_congr {s' : CCryptoKeyStore} (h : s'.mapCryptedKeys = s.mapCryptedKeys) :
    s'.attempt crypto = s.attempt crypto := by
  funext pass m
  simp only [attempt,fits,firstCrypted,h]

/-- What the statements of one round of either loop do. -/
theorem tried (huse : s.fUseCrypto = true) (pass : List UInt8) (m : CMasterKey)
    (crypter : CCrypter) : (s.attempt crypto pass m).Tried crypto s pass m crypter := by
  cases hderive : m.derive crypto pass with
  | none =>
    simp only [attempt,hderive]
    exact CCrypter.setKeyFor_none crypter hderive
  | some key =>
    obtain ⟨chKey,chIV⟩ := key
    have hset := CCrypter.setKeyFor_some crypter hderive
    cases hplain : crypto.decrypt chKey chIV m.vchCryptedKey with
    | none => simp [attempt,hderive,hplain,Attempt.Tried,hset,CCrypter.decrypt]
    | some vMasterKey =>
      have hunlock := @unlock_eq crypto s huse vMasterKey
      cases hfits : s.fits crypto vMasterKey with
      | none => simp [attempt,hderive,hplain,hfits,Attempt.Tried,hset,CCrypter.decrypt,hunlock]
      | some fits =>
        cases fits with
        | false => simp [attempt,hderive,hplain,hfits,Attempt.Tried,hset,CCrypter.decrypt,hunlock]
        | true => simp [attempt,hderive,hplain,hfits,Attempt.Tried,hset,CCrypter.decrypt,hunlock]

theorem attempt_opened {vMasterKey : CKeyingMaterial}
    (h : s.attempt crypto pass m = .opened vMasterKey) : s.fits crypto vMasterKey = some true := by
  revert h
  fun_cases CCryptoKeyStore.attempt with
  | case5 chKey chIV _ vMasterKey' _ hfits =>
    intro h
    cases h
    exact hfits
  | _ => simp

end CCryptoKeyStore

namespace PassphraseWallet

theorem unlockLoop_eq (huse : s.fUseCrypto = true) (keys : MasterKeyMap) (crypter : CCrypter) :
    unlockLoop crypto pass crypter keys s =
      match keys.dropWhile (s.passesOver crypto pass) with
      | [] => some (false,s)
      | (_,m) :: _ => (s.attempt crypto pass m).unlocks s := by
  induction keys generalizing crypter with
  | nil => rfl
  | cons e rest ih =>
    obtain ⟨nID,m⟩ := e
    have htried := @CCryptoKeyStore.tried crypto s huse pass m crypter
    cases hat : s.attempt crypto pass m with
    | underivable =>
      rw [hat] at htried
      obtain ⟨crypter',hset⟩ := htried
      simp [unlockLoop,hset,CCryptoKeyStore.passesOver,CCryptoKeyStore.refuses,hat,Attempt.unlocks]
    | undecryptable =>
      rw [hat] at htried
      obtain ⟨crypter',hset,hplain⟩ := htried
      simp [unlockLoop,hset,hplain,ih,CCryptoKeyStore.passesOver,CCryptoKeyStore.refuses,hat]
    | aborted =>
      rw [hat] at htried
      obtain ⟨crypter',vMasterKey,hset,hplain,hunlock⟩ := htried
      simp [unlockLoop,hset,hplain,hunlock,CCryptoKeyStore.passesOver,CCryptoKeyStore.refuses,hat,
        Attempt.unlocks]
    | refused =>
      rw [hat] at htried
      obtain ⟨crypter',vMasterKey,hset,hplain,hunlock⟩ := htried
      simp [unlockLoop,hset,hplain,hunlock,ih,CCryptoKeyStore.passesOver,CCryptoKeyStore.refuses,
        hat]
    | opened vMasterKey =>
      rw [hat] at htried
      obtain ⟨crypter',hset,hplain,hunlock⟩ := htried
      simp [unlockLoop,hset,hplain,hunlock,CCryptoKeyStore.passesOver,CCryptoKeyStore.refuses,hat,
        Attempt.unlocks]

theorem changeLoop_eq (huse : w.store.fUseCrypto = true) (fWasLocked : Bool)
    (keys before : MasterKeyMap) (crypter : CCrypter) :
    changeLoop crypto env fWasLocked old new crypter before keys w =
      match keys.dropWhile (w.store.refuses crypto old) with
      | [] => some (false,w)
      | (nID,m) :: after =>
        w.conclude crypto env fWasLocked new
          (before ++ keys.takeWhile (w.store.refuses crypto old)) after nID m
          (w.store.attempt crypto old m) := by
  induction keys generalizing before crypter with
  | nil => rfl
  | cons e rest ih =>
    obtain ⟨nID,m⟩ := e
    have htried := @CCryptoKeyStore.tried crypto w.store huse old m crypter
    cases hat : w.store.attempt crypto old m with
    | underivable =>
      rw [hat] at htried
      obtain ⟨crypter',hset⟩ := htried
      simp [changeLoop,hset,CCryptoKeyStore.refuses,hat,conclude]
    | undecryptable =>
      rw [hat] at htried
      obtain ⟨crypter',hset,hplain⟩ := htried
      simp [changeLoop,hset,hplain,CCryptoKeyStore.refuses,hat,conclude]
    | aborted =>
      rw [hat] at htried
      obtain ⟨crypter',vMasterKey,hset,hplain,hunlock⟩ := htried
      simp [changeLoop,hset,hplain,hunlock,CCryptoKeyStore.refuses,hat,conclude]
    | refused =>
      rw [hat] at htried
      obtain ⟨crypter',vMasterKey,hset,hplain,hunlock⟩ := htried
      simp [changeLoop,hset,hplain,hunlock,CCryptoKeyStore.refuses,hat,ih]
    | opened vMasterKey =>
      rw [hat] at htried
      obtain ⟨crypter',hset,hplain,hunlock⟩ := htried
      simp [changeLoop,hset,hplain,hunlock,CCryptoKeyStore.refuses,hat,conclude,rekey_eq]

theorem changeWalletPassphrase_eq (huse : w.store.fUseCrypto = true) :
    w.changeWalletPassphrase crypto env old new =
      match w.mapMasterKeys.dropWhile (w.store.refuses crypto old) with
      | [] => some (false,w.locked)
      | (nID,m) :: after =>
        w.locked.conclude crypto env w.store.isLocked new
          (w.mapMasterKeys.takeWhile (w.store.refuses crypto old)) after nID m
          (w.store.attempt crypto old m) := by
  have hlocked : { w with store := w.store.lock.2 } = w.locked := by
    rw [CCryptoKeyStore.lock_eq huse]
    rfl
  have hattempt : w.locked.store.attempt crypto = w.store.attempt crypto :=
    CCryptoKeyStore.attempt_congr rfl
  have hrefuses : w.locked.store.refuses crypto old = w.store.refuses crypto old := by
    funext e
    simp only [CCryptoKeyStore.refuses,hattempt]
  rw [changeWalletPassphrase,hlocked,changeLoop_eq (w := w.locked) huse,hrefuses,hattempt]
  rfl

theorem restores_of_false {w' : PassphraseWallet}
    (hchange : w.changeWalletPassphrase crypto env old new = some (false,w')) :
    w.Restores crypto env old new ↔ w'.store.isLocked = w.store.isLocked ∧
      w'.mapMasterKeys = w.mapMasterKeys ∧ w'.records = w.records := by
  rw [Restores,hchange]
  constructor
  · intro h
    exact (h false w' rfl).1 rfl
  · intro h fRet w'' heq
    cases heq
    exact ⟨fun _ => h,fun htrue => by simp at htrue⟩

theorem restores_of_true {w' : PassphraseWallet}
    (hchange : w.changeWalletPassphrase crypto env old new = some (true,w')) :
    w.Restores crypto env old new ↔ w'.store.isLocked = w.store.isLocked ∧
      ∃ w'', w'.unlock crypto new = some (true,w'') ∧ w''.store.isLocked = false := by
  rw [Restores,hchange]
  constructor
  · intro h
    exact (h true w' rfl).2 rfl
  · intro h fRet w'' heq
    cases heq
    exact ⟨fun hfalse => by simp at hfalse,fun _ => h⟩

/-- An exit before the key store is opened leaves the wallet locked. -/
theorem restores_iff_locked (huse : w.store.fUseCrypto = true)
    (hchange : w.changeWalletPassphrase crypto env old new = some (false,w.locked)) :
    w.Restores crypto env old new ↔ w.store.isLocked = true := by
  have hlocked : w.locked.store.isLocked = true :=
    (CCryptoKeyStore.isLocked_eq (s := w.locked.store) huse).trans rfl
  rw [restores_of_false hchange,hlocked]
  exact ⟨fun h => h.1.symm,fun h => ⟨h.symm,rfl,rfl⟩⟩

/-- Unlocking with a passphrase leaves the wallet open when the first master key that the
loop stops at opens it. -/
theorem unlock_iff (huse : w.store.fUseCrypto = true) :
    (∃ w', w.unlock crypto pass = some (true,w') ∧ w'.store.isLocked = false) ↔
      match w.mapMasterKeys.dropWhile (w.store.passesOver crypto pass) with
      | [] => False
      | (_,m) :: _ => w.store.opensAt crypto pass m = true := by
  rw [unlock,unlockLoop_eq huse]
  cases w.mapMasterKeys.dropWhile (w.store.passesOver crypto pass) with
  | nil => simp
  | cons e after =>
    obtain ⟨nID,m⟩ := e
    cases hat : w.store.attempt crypto pass m with
    | opened vMasterKey =>
      simp [Attempt.unlocks,CCryptoKeyStore.opensAt,hat,CCryptoKeyStore.isLocked,
        CCryptoKeyStore.isCrypted,huse]
    | underivable => simp [Attempt.unlocks,CCryptoKeyStore.opensAt,hat]
    | undecryptable => simp [Attempt.unlocks,CCryptoKeyStore.opensAt,hat]
    | aborted => simp [Attempt.unlocks,CCryptoKeyStore.opensAt,hat]
    | refused => simp [Attempt.unlocks,CCryptoKeyStore.opensAt,hat]

/-- The new passphrase opens the key store at the master key that was written with it. -/
theorem attempt_rekeyed (hdec : crypto.Decrypts) {s : CCryptoKeyStore} {m m' : CMasterKey}
    {vMasterKey : CKeyingMaterial} (hat : s.attempt crypto old m = .opened vMasterKey)
    (hrekey : rekey crypto env .create new m vMasterKey = (true,m')) :
    s.attempt crypto new m' = .opened vMasterKey := by
  have hfits := (CCryptoKeyStore.attempt_opened hat)
  rw [rekey_eq] at hrekey
  cases hderive : (m.retimed env).derive crypto new with
  | none => simp [hderive] at hrekey
  | some key =>
    obtain ⟨chKey,chIV⟩ := key
    cases hcipher : crypto.encrypt chKey chIV vMasterKey with
    | none => simp [hderive,hcipher] at hrekey
    | some cipher =>
      simp only [hderive,hcipher,Prod.mk.injEq,true_and] at hrekey
      subst hrekey
      have hderive' : CMasterKey.derive crypto { m.retimed env with vchCryptedKey := cipher } new =
          some (chKey,chIV) := hderive
      simp [CCryptoKeyStore.attempt,hderive',hdec _ _ _ _ hcipher,hfits]

theorem conclude_changed (huse : w.store.fUseCrypto = true) (fWasLocked : Bool)
    (before after : MasterKeyMap) (nID : Uint32) {m m' : CMasterKey} {vMasterKey : CKeyingMaterial}
    (hrekey : rekey crypto env .create new m vMasterKey = (true,m')) :
    ∃ w', w.conclude crypto env fWasLocked new before after nID m (.opened vMasterKey) =
        some (true,w') ∧
      w'.store.fUseCrypto = true ∧ w'.store.mapCryptedKeys = w.store.mapCryptedKeys ∧
      w'.mapMasterKeys = before ++ (nID,m') :: after ∧
      w'.store.isLocked = (fWasLocked || vMasterKey.isEmpty) := by
  simp only [conclude,hrekey,Bool.not_true,Bool.false_eq_true,if_false]
  refine ⟨_,rfl,?_⟩
  cases fWasLocked with
  | false =>
    simp only [Bool.false_eq_true,if_false,Bool.false_or]
    rw [writeMasterKey]
    split <;> simp [huse,CCryptoKeyStore.isLocked,CCryptoKeyStore.isCrypted]
  | true =>
    simp only [if_true,Bool.true_or]
    rw [writeMasterKey]
    split <;> simp [huse,CCryptoKeyStore.isLocked,CCryptoKeyStore.isCrypted,
      CCryptoKeyStore.lock,CCryptoKeyStore.setCrypted]

/-- The exits behind an opened key store. -/
theorem restores_iff_opened (hdec : crypto.Decrypts) (huse : w.store.fUseCrypto = true)
    {nID : Uint32} {m : CMasterKey} {after before : MasterKeyMap} {vMasterKey : CKeyingMaterial}
    (hmap : w.mapMasterKeys = before ++ (nID,m) :: after)
    (hat : w.store.attempt crypto old m = .opened vMasterKey)
    (hchange : w.changeWalletPassphrase crypto env old new =
      w.locked.conclude crypto env w.store.isLocked new before after nID m (.opened vMasterKey)) :
    w.Restores crypto env old new ↔
      match rekey crypto env .create new m vMasterKey with
      | (false,m') => m' = m ∧ w.store.isLocked = vMasterKey.isEmpty
      | (true,_) => (w.store.isLocked = true ∨ vMasterKey.isEmpty = false) ∧
        match before.dropWhile (w.store.passesOver crypto new) with
        | [] => vMasterKey.isEmpty = false
        | (_,m) :: _ => w.store.opensAt crypto new m = true := by
  cases hrekey : rekey crypto env .create new m vMasterKey with
  | mk fChanged m' =>
    cases fChanged with
    | false =>
      simp only [conclude,hrekey] at hchange
      rw [restores_of_false hchange,hmap]
      simp [locked,CCryptoKeyStore.isLocked,CCryptoKeyStore.isCrypted,huse]
      grind
    | true =>
      obtain ⟨w',hconclude,huse',hkeys,hmap',hlocked⟩ := conclude_changed (w := w.locked) huse
        w.store.isLocked before after nID hrekey
      have hattempt : w'.store.attempt crypto = w.store.attempt crypto :=
        CCryptoKeyStore.attempt_congr hkeys
      have hpasses : w'.store.passesOver crypto new = w.store.passesOver crypto new := by
        funext e
        simp only [CCryptoKeyStore.passesOver,CCryptoKeyStore.refuses,hattempt]
      have hopens : w'.store.opensAt crypto new = w.store.opensAt crypto new := by
        funext m
        simp only [CCryptoKeyStore.opensAt,hattempt]
      have hat' := attempt_rekeyed hdec hat hrekey
      rw [restores_of_true (hchange.trans hconclude),unlock_iff huse',hmap',hlocked,hpasses,hopens,
        List.dropWhile_append]
      have hstate : (w.store.isLocked || vMasterKey.isEmpty) = w.store.isLocked ↔
          w.store.isLocked = true ∨ vMasterKey.isEmpty = false := by
        cases w.store.isLocked <;> cases vMasterKey.isEmpty <;> simp
      rw [hstate]
      cases hbefore : before.dropWhile (w.store.passesOver crypto new) with
      | nil =>
        have hstop : w.store.passesOver crypto new (nID,m') = false := by
          simp [CCryptoKeyStore.passesOver,CCryptoKeyStore.refuses,hat']
        simp [hstop,CCryptoKeyStore.opensAt,hat']
      | cons e rest => simp

/-- A change of the passphrase keeps its promise exactly where it ends well: a failed one when
the wallet was locked before it. -/
theorem changeWalletPassphrase_restores_iff (hdec : crypto.Decrypts) (huse : w.store.fUseCrypto = true) :
    w.Restores crypto env old new ↔ w.keepsPromise crypto env old new = true := by
  have hchange := @changeWalletPassphrase_eq crypto env w old new huse
  rw [keepsPromise]
  cases hdrop : w.mapMasterKeys.dropWhile (w.store.refuses crypto old) with
  | nil =>
    simp only [hdrop] at hchange
    exact restores_iff_locked huse hchange
  | cons e after =>
    obtain ⟨nID,m⟩ := e
    simp only [hdrop] at hchange
    cases hat : w.store.attempt crypto old m with
    | underivable =>
      simp only [hat] at hchange ⊢
      exact restores_iff_locked huse hchange
    | undecryptable =>
      simp only [hat] at hchange ⊢
      exact restores_iff_locked huse hchange
    | refused =>
      simp only [hat] at hchange ⊢
      exact restores_iff_locked huse hchange
    | aborted =>
      simp only [hat] at hchange ⊢
      simp [Restores,hchange,conclude]
    | opened vMasterKey =>
      simp only [hat] at hchange ⊢
      have hmap := (List.takeWhile_append_dropWhile (p := w.store.refuses crypto old)
        (l := w.mapMasterKeys)).symm
      rw [hdrop] at hmap
      rw [restores_iff_opened hdec huse hmap hat hchange]
      cases hrekey : rekey crypto env .create new m vMasterKey with
      | mk fChanged m' =>
        cases fChanged with
        | false => simp
        | true =>
          cases hbefore : (w.mapMasterKeys.takeWhile (w.store.refuses crypto old)).dropWhile
              (w.store.passesOver crypto new) with
          | nil => simp
          | cons e rest => simp

/-- A cipher that puts the key before the plaintext, and the passphrase as the key. -/
def prefixPassphrase : PassphraseCrypto :=
  { prefixCrypto with
    bytesToKey := fun _ pass _ => some ((pass ++ List.replicate 32 0).take 32,[])
    leftover := fun _ _ plain => List.replicate (plain.length+16) 0 }

theorem prefixPassphrase_decrypts : prefixPassphrase.Decrypts := prefixCrypto_keyed.decrypts

/-- Two master keys under one passphrase, of which the second opens the wallet. -/
def twoKeys (vMasterKey : CKeyingMaterial) : PassphraseWallet :=
  let secret := 3 :: List.replicate 31 1
  let masterKey (b : UInt8) : CMasterKey :=
    ⟨5 :: List.replicate 31 0 ++ List.replicate 32 b,List.replicate 8 7,0,25000,[]⟩
  { store := ⟨∅,(∅ : CryptedKeyMap).insert 1 (⟨2 :: secret⟩,List.replicate 32 9 ++ secret),
      vMasterKey,true⟩
    mapMasterKeys := [(1,masterKey 8),(2,masterKey 9)]
    records := ∅ }

def doubledCounts : ChangeEnv := ⟨fun n => n+n,fun n => n+1,true⟩

theorem changeWalletPassphrase_restores_twoKeys :
    (twoKeys (List.replicate 32 9)).Restores prefixPassphrase doubledCounts [5] [6] :=
  (changeWalletPassphrase_restores_iff prefixPassphrase_decrypts rfl).mpr (by decide +kernel)

/-- A wrong old passphrase locks an unlocked wallet. -/
theorem changeWalletPassphrase_locks : ¬∀ (crypto : PassphraseCrypto) (env : ChangeEnv)
    (w : PassphraseWallet) (old new : List UInt8), crypto.Decrypts → w.store.fUseCrypto = true →
      w.Restores crypto env old new := by
  intro h
  have hrestores := h prefixPassphrase doubledCounts (twoKeys (List.replicate 32 9)) [4] [6]
    prefixPassphrase_decrypts rfl
  have hmap : ((twoKeys (List.replicate 32 9)).changeWalletPassphrase prefixPassphrase doubledCounts
      [4] [6]).map (fun r => (r.1,r.2.store.isLocked)) = some (false,true) := by
    decide +kernel
  obtain ⟨⟨fRet,w'⟩,hchange,hw'⟩ := Option.map_eq_some_iff.mp hmap
  simp only [Prod.mk.injEq] at hw'
  obtain ⟨rfl,hlocked⟩ := hw'
  have hsame := ((restores_of_false hchange).mp hrestores).1
  have hopen : (twoKeys (List.replicate 32 9)).store.isLocked = false := by decide
  rw [hlocked,hopen] at hsame
  simp at hsame

end PassphraseWallet

end Model

end Anoncoin
