import Mathlib.Data.List.AList
import Mathlib.Data.List.MinMax
import Anoncoin.Block
import Anoncoin.Lib.Runs

/-!
The encrypted key store (crypter.cpp, keystore.cpp, key.h). The cipher, the hashes and the
public key of a secret come from other libraries and are parameters.
-/

set_option autoImplicit false

namespace Anoncoin
open Lib

abbrev CKeyID := BitVec 160

abbrev CKeyingMaterial := List UInt8

def WALLET_CRYPTO_KEY_SIZE : Nat := 32

/-- The serialized data of a public key. -/
structure CPubKey where
  vch : List UInt8
  deriving DecidableEq, Repr

namespace CPubKey

/-- The length of a public key with a given first byte. -/
def getLen (chHeader : UInt8) : Nat :=
  if chHeader = 2 ∨ chHeader = 3 then 33
  else if chHeader = 4 ∨ chHeader = 6 ∨ chHeader = 7 then 65
  else 0

def size (pubkey : CPubKey) : Nat := getLen (pubkey.vch.headD 0xff)

def isCompressed (pubkey : CPubKey) : Bool := pubkey.size == 33

end CPubKey

/-- The order of the group of the curve, less one. -/
def vchMax : List UInt8 :=
  [0xFF,0xFF,0xFF,0xFF,0xFF,0xFF,0xFF,0xFF,0xFF,0xFF,0xFF,0xFF,0xFF,0xFF,0xFF,0xFE,
    0xBA,0xAE,0xDC,0xE6,0xAF,0x48,0xA0,0x3B,0xBF,0xD2,0x5E,0x8C,0xD0,0x36,0x41,0x40]

/-- The second loop of `CKey::Check`. -/
def checkBelow : List UInt8 → List UInt8 → Bool
  | b :: bytes,m :: most => if b < m then true else if b > m then false else checkBelow bytes most
  | _,_ => true

/-- `CKey::Check`. -/
def checkSecret (vch : List UInt8) : Bool :=
  if vch.all (· == 0) then false else checkBelow vch vchMax

/-- A private key. The data of a valid one has passed the check. -/
structure CKey where
  fValid : Bool
  fCompressed : Bool
  vch : List UInt8
  length_vch : vch.length = 32
  checked : fValid = true → checkSecret vch = true
  deriving DecidableEq

namespace CKey

def create : CKey := ⟨false,false,List.replicate 32 0,rfl,by simp⟩

/-- The bytes from `begin` to `end`. -/
def bytes (key : CKey) : List UInt8 := if key.fValid then key.vch else []

def set (key : CKey) (data : List UInt8) (fCompressedIn : Bool) : CKey :=
  if hlen : data.length = 32 then
    if hcheck : checkSecret data = true then ⟨true,fCompressedIn,data,hlen,fun _ => hcheck⟩
    else { key with fValid := false, checked := by simp }
  else { key with fValid := false, checked := by simp }

end CKey

/-- What other libraries compute: the public key of a secret, the hashes of a public key, and
AES with a key and an initial vector. -/
structure KeyCrypto where
  pubKeyOf : List UInt8 → Bool → CPubKey
  getID : CPubKey → CKeyID
  getHash : CPubKey → Uint256
  encrypt : List UInt8 → List UInt8 → List UInt8 → Option (List UInt8)
  decrypt : List UInt8 → List UInt8 → List UInt8 → Option (List UInt8)

section KeyStore
variable (crypto : KeyCrypto)

/-- There is no result when the assertion that the key is valid fails. -/
def CKey.getPubKey (key : CKey) : Option CPubKey :=
  if key.fValid then some (crypto.pubKeyOf key.vch key.fCompressed) else none

/-- `CCrypter::SetKey`, then one of the operations of the cipher. -/
def withKey (vMasterKey : CKeyingMaterial) (nIV : Uint256)
    (cipher : List UInt8 → List UInt8 → Option (List UInt8)) : Option (List UInt8) :=
  let chIV := littleEndian WALLET_CRYPTO_KEY_SIZE nIV.toNat
  if vMasterKey.length ≠ WALLET_CRYPTO_KEY_SIZE ∨ chIV.length ≠ WALLET_CRYPTO_KEY_SIZE then none
  else cipher vMasterKey chIV

def encryptSecret (vMasterKey vchPlaintext : CKeyingMaterial) (nIV : Uint256) :
    Option (List UInt8) :=
  withKey vMasterKey nIV fun chKey chIV => crypto.encrypt chKey chIV vchPlaintext

def decryptSecret (vMasterKey : CKeyingMaterial) (vchCiphertext : List UInt8) (nIV : Uint256) :
    Option CKeyingMaterial :=
  withKey vMasterKey nIV fun chKey chIV => crypto.decrypt chKey chIV vchCiphertext

abbrev KeyMap := AList fun _ : CKeyID => CKey

abbrev CryptedKeyMap := AList fun _ : CKeyID => CPubKey × List UInt8

structure CCryptoKeyStore where
  mapKeys : KeyMap
  mapCryptedKeys : CryptedKeyMap
  vMasterKey : CKeyingMaterial
  fUseCrypto : Bool

namespace CCryptoKeyStore

def create : CCryptoKeyStore := ⟨∅,∅,[],false⟩

def isCrypted (s : CCryptoKeyStore) : Bool := s.fUseCrypto

def isLocked (s : CCryptoKeyStore) : Bool := if !s.isCrypted then false else s.vMasterKey.isEmpty

def setCrypted (s : CCryptoKeyStore) : Bool × CCryptoKeyStore :=
  if s.fUseCrypto then (true,s)
  else if !s.mapKeys.entries.isEmpty then (false,s)
  else (true,{ s with fUseCrypto := true })

def lock (s : CCryptoKeyStore) : Bool × CCryptoKeyStore :=
  match s.setCrypted with
  | (false,s) => (false,s)
  | (true,s) => (true,{ s with vMasterKey := [] })

/-- The first entry in the order of the addresses. -/
def firstCrypted (s : CCryptoKeyStore) : Option (CPubKey × List UInt8) :=
  (s.mapCryptedKeys.entries.argmin fun e => e.1.toNat).map fun e => e.2

/-- Whether the candidate opens the first entry, which ends the loop either way. -/
def opens (vMasterKeyIn : CKeyingMaterial) (vchPubKey : CPubKey) (vchCryptedSecret : List UInt8) :
    Option Bool :=
  match decryptSecret crypto vMasterKeyIn vchCryptedSecret (crypto.getHash vchPubKey) with
  | none => some false
  | some vchSecret =>
    if vchSecret.length ≠ 32 then some false
    else
      ((CKey.create.set vchSecret vchPubKey.isCompressed).getPubKey crypto).map fun pubkey =>
        decide (pubkey = vchPubKey)

/-- There is no result when an assertion fails. -/
def unlock (s : CCryptoKeyStore) (vMasterKeyIn : CKeyingMaterial) :
    Option (Bool × CCryptoKeyStore) :=
  match s.setCrypted with
  | (false,s) => some (false,s)
  | (true,s) =>
    match s.firstCrypted with
    | none => some (true,{ s with vMasterKey := vMasterKeyIn })
    | some (vchPubKey,vchCryptedSecret) =>
      (opens crypto vMasterKeyIn vchPubKey vchCryptedSecret).map fun fits =>
        if fits then (true,{ s with vMasterKey := vMasterKeyIn }) else (false,s)

def addCryptedKey (s : CCryptoKeyStore) (vchPubKey : CPubKey) (vchCryptedSecret : List UInt8) :
    Bool × CCryptoKeyStore :=
  match s.setCrypted with
  | (false,s) => (false,s)
  | (true,s) => (true,{ s with
      mapCryptedKeys := s.mapCryptedKeys.insert (crypto.getID vchPubKey) (vchPubKey,vchCryptedSecret) })

def addKeyPubKey (s : CCryptoKeyStore) (key : CKey) (pubkey : CPubKey) : Bool × CCryptoKeyStore :=
  if !s.isCrypted then (true,{ s with mapKeys := s.mapKeys.insert (crypto.getID pubkey) key })
  else if s.isLocked then (false,s)
  else match encryptSecret crypto s.vMasterKey key.bytes (crypto.getHash pubkey) with
    | none => (false,s)
    | some vchCryptedSecret => s.addCryptedKey crypto pubkey vchCryptedSecret

def getKey (s : CCryptoKeyStore) (address : CKeyID) : Option CKey :=
  if !s.isCrypted then s.mapKeys.lookup address
  else match s.mapCryptedKeys.lookup address with
    | none => none
    | some (vchPubKey,vchCryptedSecret) =>
      match decryptSecret crypto s.vMasterKey vchCryptedSecret (crypto.getHash vchPubKey) with
      | none => none
      | some vchSecret =>
        if vchSecret.length ≠ 32 then none
        else some (CKey.create.set vchSecret vchPubKey.isCompressed)

/-- The loop of `EncryptKeys` over the keys in the order of the addresses. -/
def encryptLoop (vMasterKeyIn : CKeyingMaterial) :
    List (Σ _ : CKeyID, CKey) → CCryptoKeyStore → Option (Bool × CCryptoKeyStore)
  | [],s => some (true,s)
  | mKey :: rest,s =>
    (mKey.2.getPubKey crypto).bind fun vchPubKey =>
      match encryptSecret crypto vMasterKeyIn mKey.2.bytes (crypto.getHash vchPubKey) with
      | none => some (false,s)
      | some vchCryptedSecret =>
        match s.addCryptedKey crypto vchPubKey vchCryptedSecret with
        | (false,s) => some (false,s)
        | (true,s) => encryptLoop vMasterKeyIn rest s

def encryptKeys (s : CCryptoKeyStore) (vMasterKeyIn : CKeyingMaterial) :
    Option (Bool × CCryptoKeyStore) :=
  if !s.mapCryptedKeys.entries.isEmpty || s.isCrypted then some (false,s)
  else
    let keys := s.mapKeys.entries.mergeSort fun a b => decide (a.1.toNat ≤ b.1.toNat)
    (encryptLoop crypto vMasterKeyIn keys { s with fUseCrypto := true }).map fun result =>
      if result.1 then (true,{ result.2 with mapKeys := ∅ }) else result

end CCryptoKeyStore

/-- A store in use: the key that it was encrypted with, and the keys that were added. -/
structure KeyHistory where
  store : CCryptoKeyStore
  encryptedWith : Option CKeyingMaterial
  added : KeyMap

inductive StoreCall where
  | addKeyPubKey (key : CKey) (pubkey : CPubKey)
  | encryptKeys (vMasterKeyIn : CKeyingMaterial)
  | lock
  | unlock (vMasterKeyIn : CKeyingMaterial)

namespace KeyHistory

def create : KeyHistory := ⟨.create,none,∅⟩

/-- There is no next state when an assertion fails. -/
def step (h : KeyHistory) : StoreCall → Option KeyHistory
  | .addKeyPubKey key pubkey =>
    let (fRet,store) := h.store.addKeyPubKey crypto key pubkey
    some { h with
      store := store, added := if fRet then h.added.insert (crypto.getID pubkey) key else h.added }
  | .encryptKeys vMasterKeyIn =>
    (h.store.encryptKeys crypto vMasterKeyIn).map fun result =>
      { h with
        store := result.2, encryptedWith := if result.1 then some vMasterKeyIn else h.encryptedWith }
  | .lock => some { h with store := h.store.lock.2 }
  | .unlock vMasterKeyIn =>
    (h.store.unlock crypto vMasterKeyIn).map fun result => { h with store := result.2 }

/-- Each key is added with its own public key; the store is encrypted once, when it has a
key, with a master key of the size that `EncryptWallet` makes; it is locked and unlocked
afterwards. -/
def admits (h : KeyHistory) : StoreCall → Prop
  | .addKeyPubKey key pubkey => key.getPubKey crypto = some pubkey
  | .encryptKeys vMasterKeyIn => h.store.fUseCrypto = false ∧ h.store.mapKeys.entries ≠ [] ∧
    vMasterKeyIn.length = WALLET_CRYPTO_KEY_SIZE
  | .lock => h.store.fUseCrypto = true
  | .unlock _ => h.store.fUseCrypto = true

end KeyHistory

/-- What the code relies on: a key that is long enough encrypts every secret; the same key
decrypts it again, and no other one gives a secret with the same public key; the form of a
public key is the one that was asked for. -/
structure KeyCrypto.Keyed : Prop where
  encrypts : ∀ chKey chIV secret, chKey.length = WALLET_CRYPTO_KEY_SIZE → secret.length = 32 →
    ∃ cipher, crypto.encrypt chKey chIV secret = some cipher
  decrypts : ∀ chKey chIV secret cipher, crypto.encrypt chKey chIV secret = some cipher →
    crypto.decrypt chKey chIV cipher = some secret
  wrongKey : ∀ chKey chKey' chIV secret secret' cipher fCompressed,
    crypto.encrypt chKey chIV secret = some cipher → chKey' ≠ chKey →
    crypto.decrypt chKey' chIV cipher = some secret' →
    crypto.pubKeyOf secret' fCompressed ≠ crypto.pubKeyOf secret fCompressed
  compressed : ∀ secret fCompressed, (crypto.pubKeyOf secret fCompressed).isCompressed = fCompressed

/-- The entry is the key, encrypted with the master key, under its own address. -/
structure Sealed (vMasterKey : CKeyingMaterial) (address : CKeyID) (key : CKey)
    (entry : CPubKey × List UInt8) : Prop where
  pubkey : key.getPubKey crypto = some entry.1
  address : crypto.getID entry.1 = address
  secret : encryptSecret crypto vMasterKey key.bytes (crypto.getHash entry.1) = some entry.2

variable {crypto}

section Cipher
variable {vMasterKey : CKeyingMaterial} {nIV : Uint256}

theorem withKey_eq (h : vMasterKey.length = WALLET_CRYPTO_KEY_SIZE)
    (cipher : List UInt8 → List UInt8 → Option (List UInt8)) :
    withKey vMasterKey nIV cipher =
      cipher vMasterKey (littleEndian WALLET_CRYPTO_KEY_SIZE nIV.toNat) := by
  simp [withKey,h]

theorem withKey_none (h : vMasterKey.length ≠ WALLET_CRYPTO_KEY_SIZE)
    (cipher : List UInt8 → List UInt8 → Option (List UInt8)) :
    withKey vMasterKey nIV cipher = none := by
  simp [withKey,h]

theorem encryptSecret_ok (hk : crypto.Keyed) (h : vMasterKey.length = WALLET_CRYPTO_KEY_SIZE)
    {secret : List UInt8} (hs : secret.length = 32) :
    ∃ cipher, encryptSecret crypto vMasterKey secret nIV = some cipher := by
  rw [encryptSecret,withKey_eq h]
  exact hk.encrypts _ _ _ h hs

theorem decryptSecret_encrypted (hk : crypto.Keyed) (h : vMasterKey.length = WALLET_CRYPTO_KEY_SIZE)
    {secret cipher : List UInt8} (hc : encryptSecret crypto vMasterKey secret nIV = some cipher) :
    decryptSecret crypto vMasterKey cipher nIV = some secret := by
  rw [encryptSecret,withKey_eq h] at hc
  rw [decryptSecret,withKey_eq h]
  exact hk.decrypts _ _ _ _ hc

theorem decryptSecret_wrong (hk : crypto.Keyed) (h : vMasterKey.length = WALLET_CRYPTO_KEY_SIZE)
    {vMasterKey' secret secret' cipher : List UInt8}
    (hc : encryptSecret crypto vMasterKey secret nIV = some cipher) (hne : vMasterKey' ≠ vMasterKey)
    (hd : decryptSecret crypto vMasterKey' cipher nIV = some secret') (fCompressed : Bool) :
    crypto.pubKeyOf secret' fCompressed ≠ crypto.pubKeyOf secret fCompressed := by
  by_cases hlen : vMasterKey'.length = WALLET_CRYPTO_KEY_SIZE
  · rw [encryptSecret,withKey_eq h] at hc
    rw [decryptSecret,withKey_eq hlen] at hd
    exact hk.wrongKey _ _ _ _ _ _ fCompressed hc hne hd
  · rw [decryptSecret,withKey_none hlen] at hd
    contradiction

end Cipher

namespace CKey

theorem getPubKey_eq_some {key : CKey} {pubkey : CPubKey}
    (h : key.getPubKey crypto = some pubkey) :
    key.fValid = true ∧ crypto.pubKeyOf key.vch key.fCompressed = pubkey ∧ key.bytes = key.vch := by
  unfold getPubKey at h
  split at h
  · rename_i hv
    exact ⟨hv,Option.some.inj h,by simp [bytes,hv]⟩
  · contradiction

theorem set_valid {before : CKey} {data : List UInt8} {fCompressedIn : Bool}
    (h : (before.set data fCompressedIn).fValid = true) :
    (before.set data fCompressedIn).vch = data ∧
      (before.set data fCompressedIn).fCompressed = fCompressedIn := by
  unfold set at h ⊢
  split
  · split
    · exact ⟨rfl,rfl⟩
    · simp_all
  · simp_all

/-- A valid key is set again from its own data. -/
theorem set_vch (key : CKey) (h : key.fValid = true) (before : CKey) :
    before.set key.vch key.fCompressed = key := by
  rw [set,dif_pos key.length_vch,dif_pos (key.checked h)]
  cases key
  simp only [mk.injEq,and_true]
  exact h.symm

end CKey

namespace Sealed
variable {vMasterKey : CKeyingMaterial} {address : CKeyID} {key : CKey}
  {entry : CPubKey × List UInt8}

theorem isCompressed (hk : crypto.Keyed) (h : Sealed crypto vMasterKey address key entry) :
    entry.1.isCompressed = key.fCompressed := by
  rw [← (CKey.getPubKey_eq_some h.pubkey).2.1]
  exact hk.compressed _ _

/-- The master key gets the secret back. -/
theorem decrypts (hk : crypto.Keyed) (hsize : vMasterKey.length = WALLET_CRYPTO_KEY_SIZE)
    (h : Sealed crypto vMasterKey address key entry) :
    decryptSecret crypto vMasterKey entry.2 (crypto.getHash entry.1) = some key.vch := by
  rw [← (CKey.getPubKey_eq_some h.pubkey).2.2]
  exact decryptSecret_encrypted hk hsize h.secret

theorem set_eq (hk : crypto.Keyed) (h : Sealed crypto vMasterKey address key entry)
    (before : CKey) : before.set key.vch entry.1.isCompressed = key := by
  rw [h.isCompressed hk]
  exact key.set_vch (CKey.getPubKey_eq_some h.pubkey).1 before

theorem opens_self (hk : crypto.Keyed) (hsize : vMasterKey.length = WALLET_CRYPTO_KEY_SIZE)
    (h : Sealed crypto vMasterKey address key entry) :
    CCryptoKeyStore.opens crypto vMasterKey entry.1 entry.2 = some true := by
  simp [CCryptoKeyStore.opens,h.decrypts hk hsize,key.length_vch,h.set_eq hk,h.pubkey]

theorem opens_wrong (hk : crypto.Keyed) (hsize : vMasterKey.length = WALLET_CRYPTO_KEY_SIZE)
    (h : Sealed crypto vMasterKey address key entry) {vMasterKeyIn : CKeyingMaterial}
    (hne : vMasterKeyIn ≠ vMasterKey) :
    CCryptoKeyStore.opens crypto vMasterKeyIn entry.1 entry.2 ≠ some true := by
  intro hopens
  unfold CCryptoKeyStore.opens at hopens
  split at hopens
  · simp at hopens
  · rename_i secret hdec
    split at hopens
    · simp at hopens
    · obtain ⟨pubkey,hpub,heq⟩ := Option.map_eq_some_iff.mp hopens
      obtain ⟨hvalid,hpub,-⟩ := CKey.getPubKey_eq_some hpub
      obtain ⟨hvch,hcomp⟩ := CKey.set_valid hvalid
      rw [hvch,hcomp,of_decide_eq_true heq,h.isCompressed hk,
        ← (CKey.getPubKey_eq_some h.pubkey).2.1] at hpub
      have hsecret := h.secret
      rw [(CKey.getPubKey_eq_some h.pubkey).2.2] at hsecret
      exact decryptSecret_wrong hk hsize hsecret hne hdec key.fCompressed hpub

end Sealed

namespace KeyHistory

/-- A store that was encrypted with `vMasterKey`. -/
structure Encrypted (crypto : KeyCrypto) (h : KeyHistory) (vMasterKey : CKeyingMaterial) :
    Prop where
  encryptedWith : h.encryptedWith = some vMasterKey
  size : vMasterKey.length = WALLET_CRYPTO_KEY_SIZE
  noKeys : h.store.mapKeys = ∅
  notEmpty : h.store.mapCryptedKeys.entries ≠ []
  master : h.store.vMasterKey = [] ∨ h.store.vMasterKey = vMasterKey
  seals : ∀ address key, h.added.lookup address = some key →
    ∃ entry, h.store.mapCryptedKeys.lookup address = some entry ∧
      Sealed crypto vMasterKey address key entry
  only : ∀ address entry, h.store.mapCryptedKeys.lookup address = some entry →
    ∃ key, h.added.lookup address = some key

structure Inv (crypto : KeyCrypto) (h : KeyHistory) : Prop where
  own : ∀ address key, h.added.lookup address = some key →
    ∃ pubkey, key.getPubKey crypto = some pubkey ∧ crypto.getID pubkey = address
  plain : h.store.fUseCrypto = false → h.store.vMasterKey = [] ∧
    h.store.mapCryptedKeys = ∅ ∧ ∀ address, h.store.mapKeys.lookup address = h.added.lookup address
  crypted : h.store.fUseCrypto = true → ∃ vMasterKey, h.Encrypted crypto vMasterKey

theorem inv_create : Inv crypto create := by
  refine ⟨fun address key h => ?_,fun _ => ⟨rfl,rfl,fun _ => rfl⟩,fun h => ?_⟩
  · simp [create] at h
  · simp [create,CCryptoKeyStore.create] at h

namespace Encrypted
variable {h : KeyHistory} {vMasterKey : CKeyingMaterial}

/-- The entry that `Unlock` looks at is that of some key. -/
theorem first (he : h.Encrypted crypto vMasterKey) : ∃ address key entry,
    h.store.firstCrypted = some entry ∧ h.store.mapCryptedKeys.lookup address = some entry ∧
      Sealed crypto vMasterKey address key entry := by
  cases hmin : h.store.mapCryptedKeys.entries.argmin fun e => e.1.toNat with
  | none => exact absurd (List.argmin_eq_none.mp hmin) he.notEmpty
  | some e =>
    have hmem := List.argmin_mem hmin
    have hlookup : h.store.mapCryptedKeys.lookup e.1 = some e.2 :=
      AList.mem_lookup_iff.mpr hmem
    obtain ⟨key,hkey⟩ := he.only e.1 e.2 hlookup
    obtain ⟨entry,hentry,hsealed⟩ := he.seals e.1 key hkey
    rw [hlookup] at hentry
    obtain rfl := Option.some.inj hentry
    exact ⟨e.1,key,e.2,by simp [CCryptoKeyStore.firstCrypted,hmin],hlookup,hsealed⟩

/-- `Unlock` with the master key sets it, and any other candidate changes nothing. -/
theorem unlock_cases (hk : crypto.Keyed) (he : h.Encrypted crypto vMasterKey)
    (huse : h.store.fUseCrypto = true) (vMasterKeyIn : CKeyingMaterial) :
    (vMasterKeyIn = vMasterKey ∧ h.store.unlock crypto vMasterKeyIn =
      some (true,{ h.store with vMasterKey := vMasterKey })) ∨
    (vMasterKeyIn ≠ vMasterKey ∧ (h.store.unlock crypto vMasterKeyIn = none ∨
      h.store.unlock crypto vMasterKeyIn = some (false,h.store))) := by
  obtain ⟨address,key,entry,hfirst,-,hsealed⟩ := he.first
  have hset : h.store.setCrypted = (true,h.store) := by simp [CCryptoKeyStore.setCrypted,huse]
  by_cases hkey : vMasterKeyIn = vMasterKey
  · subst hkey
    refine .inl ⟨rfl,?_⟩
    simp [CCryptoKeyStore.unlock,hset,hfirst,hsealed.opens_self hk he.size]
  · have hwrong := hsealed.opens_wrong hk he.size hkey
    refine .inr ⟨hkey,?_⟩
    cases hopens : CCryptoKeyStore.opens crypto vMasterKeyIn entry.1 entry.2 with
    | none => exact .inl (by simp [CCryptoKeyStore.unlock,hset,hfirst,hopens])
    | some fits =>
      cases fits with
      | true => exact absurd hopens hwrong
      | false => exact .inr (by simp [CCryptoKeyStore.unlock,hset,hfirst,hopens])

theorem getKey_unlocked (hk : crypto.Keyed) (he : h.Encrypted crypto vMasterKey)
    (huse : h.store.fUseCrypto = true) (hmaster : h.store.vMasterKey = vMasterKey)
    (address : CKeyID) : h.store.getKey crypto address = h.added.lookup address := by
  cases hentry : h.store.mapCryptedKeys.lookup address with
  | none =>
    have hnone : h.added.lookup address = none := by
      cases hadded : h.added.lookup address with
      | none => rfl
      | some key =>
        obtain ⟨entry,hsome,-⟩ := he.seals address key hadded
        rw [hentry] at hsome
        contradiction
    simp [CCryptoKeyStore.getKey,CCryptoKeyStore.isCrypted,huse,hentry,hnone]
  | some entry =>
    obtain ⟨key,hadded⟩ := he.only address entry hentry
    obtain ⟨entry',hsome,hsealed⟩ := he.seals address key hadded
    rw [hentry] at hsome
    obtain rfl := Option.some.inj hsome
    simp [CCryptoKeyStore.getKey,CCryptoKeyStore.isCrypted,huse,hentry,hadded,hmaster,
      hsealed.decrypts hk he.size,key.length_vch,hsealed.set_eq hk]

end Encrypted

/-- A store without a master key gives no key away. -/
theorem getKey_locked {store : CCryptoKeyStore} (huse : store.fUseCrypto = true)
    (hmaster : store.vMasterKey = []) (address : CKeyID) : store.getKey crypto address = none := by
  have hdec : ∀ cipher nIV, decryptSecret crypto ([] : CKeyingMaterial) cipher nIV = none :=
    fun cipher nIV => withKey_none (by decide) _
  unfold CCryptoKeyStore.getKey
  rw [if_neg (by simp [CCryptoKeyStore.isCrypted,huse])]
  cases store.mapCryptedKeys.lookup address with
  | none => rfl
  | some entry => simp [hmaster,hdec]

end KeyHistory

theorem CCryptoKeyStore.addCryptedKey_eq {store : CCryptoKeyStore} (huse : store.fUseCrypto = true)
    (vchPubKey : CPubKey) (vchCryptedSecret : List UInt8) :
    store.addCryptedKey crypto vchPubKey vchCryptedSecret = (true,{ store with
      mapCryptedKeys :=
        store.mapCryptedKeys.insert (crypto.getID vchPubKey) (vchPubKey,vchCryptedSecret) }) := by
  simp [addCryptedKey,setCrypted,huse]

/-- The keys of the list are sealed one after the other, and nothing else changes. -/
theorem CCryptoKeyStore.encryptLoop_spec (hk : crypto.Keyed) {vMasterKey : CKeyingMaterial}
    (hsize : vMasterKey.length = WALLET_CRYPTO_KEY_SIZE) {keys : List (Σ _ : CKeyID, CKey)}
    {store : CCryptoKeyStore} (huse : store.fUseCrypto = true)
    (hown : ∀ e ∈ keys, ∃ pubkey, e.2.getPubKey crypto = some pubkey ∧ crypto.getID pubkey = e.1)
    (hnodup : keys.NodupKeys) :
    ∃ map, encryptLoop crypto vMasterKey keys store =
        some (true,{ store with mapCryptedKeys := map }) ∧
      (∀ e ∈ keys, ∃ entry, map.lookup e.1 = some entry ∧ Sealed crypto vMasterKey e.1 e.2 entry) ∧
      ∀ address, address ∉ keys.keys → map.lookup address = store.mapCryptedKeys.lookup address := by
  induction keys generalizing store with
  | nil => exact ⟨store.mapCryptedKeys,rfl,by simp,fun _ _ => rfl⟩
  | cons e keys ih =>
    obtain ⟨pubkey,hpub,hid⟩ := hown e (by simp)
    obtain ⟨hvalid,-,hbytes⟩ := CKey.getPubKey_eq_some hpub
    obtain ⟨cipher,hcipher⟩ := @encryptSecret_ok crypto vMasterKey (crypto.getHash pubkey) hk hsize
      e.2.bytes (by rw [hbytes]; exact e.2.length_vch)
    obtain ⟨hnot,hrest⟩ := List.nodupKeys_cons.mp hnodup
    obtain ⟨map,hloop,hsealed,hother⟩ := @ih { store with
      mapCryptedKeys := store.mapCryptedKeys.insert (crypto.getID pubkey) (pubkey,cipher) } huse
      (fun e' he' => hown e' (by simp [he'])) hrest
    refine ⟨map,?_,fun e' he' => ?_,fun address hnotin => ?_⟩
    · rw [encryptLoop,hpub,Option.bind_some,hcipher]
      simp only [addCryptedKey_eq huse]
      exact hloop
    · obtain rfl | he' := List.mem_cons.mp he'
      · refine ⟨(pubkey,cipher),?_,hpub,hid,hcipher⟩
        rw [hother e'.1 hnot,hid]
        exact AList.lookup_insert _
      · exact hsealed e' he'
    · rw [List.keys_cons,List.mem_cons,not_or] at hnotin
      rw [hother address hnotin.2]
      exact AList.lookup_insert_ne (by rw [hid]; exact hnotin.1)

namespace KeyHistory
variable {h h' : KeyHistory}

theorem Inv.encryptKeys (hk : crypto.Keyed) (hinv : h.Inv crypto)
    {vMasterKeyIn : CKeyingMaterial} (hadmits : h.admits crypto (.encryptKeys vMasterKeyIn))
    (hstep : h.step crypto (.encryptKeys vMasterKeyIn) = some h') : h'.Inv crypto := by
  obtain ⟨huse,hkeys,hsize⟩ := hadmits
  obtain ⟨hmaster,hempty,hsame⟩ := hinv.plain huse
  generalize hsort : (h.store.mapKeys.entries.mergeSort fun a b =>
    decide (a.1.toNat ≤ b.1.toNat)) = keys
  have hperm : keys.Perm h.store.mapKeys.entries := by
    rw [← hsort]
    exact List.mergeSort_perm _ _
  have hmem : ∀ e, e ∈ keys ↔ h.added.lookup e.1 = some e.2 := by
    intro e
    rw [hperm.mem_iff,← hsame]
    exact AList.mem_lookup_iff.symm
  have hloop := @CCryptoKeyStore.encryptLoop_spec crypto hk vMasterKeyIn hsize keys
    { h.store with fUseCrypto := true } rfl (fun e he => hinv.own e.1 e.2 ((hmem e).mp he))
    ((List.perm_nodupKeys hperm).mpr h.store.mapKeys.nodupKeys)
  obtain ⟨map,hloop,hsealed,hother⟩ := hloop
  have hcall : h.store.encryptKeys crypto vMasterKeyIn = some (true,{ h.store with
      mapKeys := ∅, mapCryptedKeys := map, fUseCrypto := true }) := by
    have hentries : h.store.mapCryptedKeys.entries = [] := by rw [hempty]; rfl
    simp [CCryptoKeyStore.encryptKeys,hentries,CCryptoKeyStore.isCrypted,huse,hsort,hloop]
  simp only [step,hcall,Option.map_some,if_pos] at hstep
  obtain rfl := Option.some.inj hstep
  refine ⟨hinv.own,fun hplain => by simp at hplain,fun _ => ⟨vMasterKeyIn,rfl,hsize,rfl,?_,
    .inl hmaster,fun address key hadded => ?_,fun address entry hentry => ?_⟩⟩
  · obtain ⟨e,he⟩ := List.exists_mem_of_ne_nil _ hkeys
    obtain ⟨entry,hentry,-⟩ := hsealed e (hperm.mem_iff.mpr he)
    exact List.ne_nil_of_mem (AList.mem_lookup_iff.mp hentry)
  · exact hsealed ⟨address,key⟩ ((hmem ⟨address,key⟩).mpr hadded)
  · by_cases hin : address ∈ keys.keys
    · obtain ⟨key,hin⟩ := List.exists_of_mem_keys hin
      exact ⟨key,(hmem ⟨address,key⟩).mp hin⟩
    · have hlookup := (hother address hin).symm.trans hentry
      rw [hempty] at hlookup
      simp at hlookup

theorem Inv.lock (hinv : h.Inv crypto) (hadmits : h.admits crypto .lock)
    (hstep : h.step crypto .lock = some h') : h'.Inv crypto := by
  have huse : h.store.fUseCrypto = true := hadmits
  obtain rfl := Option.some.inj hstep
  have hlock : h.store.lock.2 = { h.store with vMasterKey := [] } := by
    simp [CCryptoKeyStore.lock,CCryptoKeyStore.setCrypted,huse]
  rw [hlock]
  obtain ⟨vMasterKey,he⟩ := hinv.crypted huse
  exact ⟨hinv.own,fun hplain => by simp [huse] at hplain,fun _ => ⟨vMasterKey,he.encryptedWith,
    he.size,he.noKeys,he.notEmpty,.inl rfl,he.seals,he.only⟩⟩

theorem Inv.unlock (hk : crypto.Keyed) (hinv : h.Inv crypto) {vMasterKeyIn : CKeyingMaterial}
    (hadmits : h.admits crypto (.unlock vMasterKeyIn))
    (hstep : h.step crypto (.unlock vMasterKeyIn) = some h') : h'.Inv crypto := by
  have huse : h.store.fUseCrypto = true := hadmits
  obtain ⟨vMasterKey,he⟩ := hinv.crypted huse
  obtain ⟨-,hcall⟩ | ⟨-,hcall | hcall⟩ := he.unlock_cases hk huse vMasterKeyIn
  · simp only [step,hcall,Option.map_some] at hstep
    obtain rfl := Option.some.inj hstep
    exact ⟨hinv.own,fun hplain => by simp [huse] at hplain,fun _ => ⟨vMasterKey,he.encryptedWith,
      he.size,he.noKeys,he.notEmpty,.inr rfl,he.seals,he.only⟩⟩
  · simp [step,hcall] at hstep
  · simp only [step,hcall,Option.map_some] at hstep
    obtain rfl := Option.some.inj hstep
    exact hinv

theorem own_insert (hinv : h.Inv crypto) {key : CKey} {pubkey : CPubKey}
    (hpub : key.getPubKey crypto = some pubkey) : ∀ address key',
    (h.added.insert (crypto.getID pubkey) key).lookup address = some key' →
      ∃ pubkey, key'.getPubKey crypto = some pubkey ∧ crypto.getID pubkey = address := by
  intro address key' hlookup
  by_cases haddr : address = crypto.getID pubkey
  · subst haddr
    rw [AList.lookup_insert] at hlookup
    obtain rfl := Option.some.inj hlookup
    exact ⟨pubkey,hpub,rfl⟩
  · rw [AList.lookup_insert_ne haddr] at hlookup
    exact hinv.own address key' hlookup

/-- A key that is added to an unlocked store is sealed with the same master key. -/
theorem Encrypted.insert {vMasterKey : CKeyingMaterial} (he : h.Encrypted crypto vMasterKey)
    {key : CKey} {entry : CPubKey × List UInt8} {address : CKeyID}
    (hsealed : Sealed crypto vMasterKey address key entry) :
    Encrypted crypto { h with
      store := { h.store with mapCryptedKeys := h.store.mapCryptedKeys.insert address entry },
      added := h.added.insert address key } vMasterKey := by
  refine ⟨he.encryptedWith,he.size,he.noKeys,?_,he.master,fun address' key' hadded => ?_,
    fun address' entry' hentry => ?_⟩
  · have hlookup : (h.store.mapCryptedKeys.insert address entry).lookup address = some entry :=
      AList.lookup_insert _
    exact List.ne_nil_of_mem (AList.mem_lookup_iff.mp hlookup)
  · by_cases haddr : address' = address
    · subst haddr
      simp only [AList.lookup_insert,Option.some.injEq] at hadded ⊢
      subst hadded
      exact ⟨entry,rfl,hsealed⟩
    · simp only [AList.lookup_insert_ne haddr] at hadded ⊢
      exact he.seals address' key' hadded
  · by_cases haddr : address' = address
    · subst haddr
      exact ⟨key,AList.lookup_insert _⟩
    · simp only [AList.lookup_insert_ne haddr] at hentry ⊢
      exact he.only address' entry' hentry

theorem Inv.addKeyPubKey (hk : crypto.Keyed) (hinv : h.Inv crypto) {key : CKey} {pubkey : CPubKey}
    (hadmits : h.admits crypto (.addKeyPubKey key pubkey))
    (hstep : h.step crypto (.addKeyPubKey key pubkey) = some h') : h'.Inv crypto := by
  have hpub : key.getPubKey crypto = some pubkey := hadmits
  cases huse : h.store.fUseCrypto with
  | false =>
    obtain ⟨hmaster,hempty,hsame⟩ := hinv.plain huse
    simp [step,CCryptoKeyStore.addKeyPubKey,CCryptoKeyStore.isCrypted,huse] at hstep
    subst hstep
    refine ⟨own_insert hinv hpub,fun _ => ⟨hmaster,hempty,fun address => ?_⟩,
      fun hcrypted => by simp at hcrypted⟩
    by_cases haddr : address = crypto.getID pubkey
    · subst haddr
      simp
    · simp [AList.lookup_insert_ne haddr,hsame]
  | true =>
    obtain ⟨vMasterKey,he⟩ := hinv.crypted huse
    obtain hlocked | hmaster := he.master
    · simp [step,CCryptoKeyStore.addKeyPubKey,CCryptoKeyStore.isCrypted,CCryptoKeyStore.isLocked,
        huse,hlocked] at hstep
      subst hstep
      exact hinv
    · have hlocked : h.store.isLocked = false := by
        have hsize := he.size
        rw [← hmaster] at hsize
        cases hkey : h.store.vMasterKey with
        | nil => simp [hkey,WALLET_CRYPTO_KEY_SIZE] at hsize
        | cons b bytes => simp [CCryptoKeyStore.isLocked,hkey]
      obtain ⟨hvalid,-,hbytes⟩ := CKey.getPubKey_eq_some hpub
      obtain ⟨cipher,hcipher⟩ := @encryptSecret_ok crypto vMasterKey (crypto.getHash pubkey) hk
        he.size key.bytes (by rw [hbytes]; exact key.length_vch)
      have hcall : h.store.addKeyPubKey crypto key pubkey = (true,{ h.store with
          mapCryptedKeys :=
            h.store.mapCryptedKeys.insert (crypto.getID pubkey) (pubkey,cipher) }) := by
        simp [CCryptoKeyStore.addKeyPubKey,CCryptoKeyStore.isCrypted,huse,hlocked,hmaster,hcipher,
          CCryptoKeyStore.addCryptedKey_eq huse]
      simp only [step,hcall,if_pos] at hstep
      obtain rfl := Option.some.inj hstep
      exact ⟨own_insert hinv hpub,fun hplain => by simp [huse] at hplain,
        fun _ => ⟨vMasterKey,he.insert ⟨hpub,rfl,hcipher⟩⟩⟩

theorem step_inv (hk : crypto.Keyed) (hinv : h.Inv crypto) {call : StoreCall}
    (hadmits : h.admits crypto call) (hstep : h.step crypto call = some h') : h'.Inv crypto := by
  cases call with
  | addKeyPubKey key pubkey => exact hinv.addKeyPubKey hk hadmits hstep
  | encryptKeys vMasterKeyIn => exact hinv.encryptKeys hk hadmits hstep
  | lock => exact hinv.lock hadmits hstep
  | unlock vMasterKeyIn => exact hinv.unlock hk hadmits hstep

/-- In every state of the store: once it is crypted `mapKeys` is empty, every entry is a key
that was added, encrypted with the master key of `EncryptKeys`, and `Unlock` succeeds with that
master key and with no other candidate. `GetKey` returns the keys that were added while the
store is not locked, and nothing while it is. -/
theorem keyStore_sealed (hk : crypto.Keyed) (hreach : ReachableBy
      (fun h call h' => h.step crypto call = some h') (admits crypto) create h) :
    (h.store.isCrypted = true → ∃ vMasterKey, h.encryptedWith = some vMasterKey ∧
      h.store.mapKeys = ∅ ∧
      (∀ address entry, h.store.mapCryptedKeys.lookup address = some entry →
        ∃ key, h.added.lookup address = some key ∧ Sealed crypto vMasterKey address key entry) ∧
      ∀ vMasterKeyIn, (∃ store, h.store.unlock crypto vMasterKeyIn = some (true,store)) ↔
        vMasterKeyIn = vMasterKey) ∧
    (h.store.isLocked = false → ∀ address,
      h.store.getKey crypto address = h.added.lookup address) ∧
    (h.store.isLocked = true → ∀ address, h.store.getKey crypto address = none) := by
  have hinv : h.Inv crypto := hreach.invariant (Inv crypto) inv_create
    fun h call h' hinv hadmits hstep => step_inv hk hinv hadmits hstep
  refine ⟨fun huse => ?_,fun hlocked address => ?_,fun hlocked address => ?_⟩
  · obtain ⟨vMasterKey,he⟩ := hinv.crypted huse
    refine ⟨vMasterKey,he.encryptedWith,he.noKeys,fun address entry hentry => ?_,
      fun vMasterKeyIn => ?_⟩
    · obtain ⟨key,hadded⟩ := he.only address entry hentry
      obtain ⟨entry',hentry',hsealed⟩ := he.seals address key hadded
      rw [hentry] at hentry'
      obtain rfl := Option.some.inj hentry'
      exact ⟨key,hadded,hsealed⟩
    · obtain ⟨heq,hcall⟩ | ⟨hne,hcall⟩ := he.unlock_cases hk huse vMasterKeyIn
      · exact ⟨fun _ => heq,fun _ => ⟨_,hcall⟩⟩
      · refine ⟨fun ⟨store,hcall'⟩ => ?_,fun heq => absurd heq hne⟩
        obtain hcall | hcall := hcall
        · rw [hcall] at hcall'
          contradiction
        · rw [hcall] at hcall'
          simp at hcall'
  · cases huse : h.store.fUseCrypto with
    | false =>
      rw [CCryptoKeyStore.getKey,if_pos (by simp [CCryptoKeyStore.isCrypted,huse])]
      exact (hinv.plain huse).2.2 address
    | true =>
      obtain ⟨vMasterKey,he⟩ := hinv.crypted huse
      have hmaster : h.store.vMasterKey ≠ [] := fun hnil => by
        simp [CCryptoKeyStore.isLocked,CCryptoKeyStore.isCrypted,huse,hnil] at hlocked
      exact he.getKey_unlocked hk huse (he.master.resolve_left hmaster) address
  · cases huse : h.store.fUseCrypto with
    | false => simp [CCryptoKeyStore.isLocked,CCryptoKeyStore.isCrypted,huse] at hlocked
    | true =>
      apply getKey_locked huse
      simpa [CCryptoKeyStore.isLocked,CCryptoKeyStore.isCrypted,huse] using hlocked

instance (h : KeyHistory) (call : StoreCall) : Decidable (h.admits crypto call) :=
  match call with
  | .addKeyPubKey key pubkey => inferInstanceAs (Decidable (key.getPubKey crypto = some pubkey))
  | .encryptKeys vMasterKeyIn => inferInstanceAs (Decidable (h.store.fUseCrypto = false ∧
      h.store.mapKeys.entries ≠ [] ∧ vMasterKeyIn.length = WALLET_CRYPTO_KEY_SIZE))
  | .lock => inferInstanceAs (Decidable (h.store.fUseCrypto = true))
  | .unlock _ => inferInstanceAs (Decidable (h.store.fUseCrypto = true))

end KeyHistory

/-- A cipher that puts the key before the plaintext and fails when it finds another one. -/
def prefixCrypto : KeyCrypto where
  pubKeyOf secret fCompressed := if fCompressed then ⟨2 :: secret⟩ else ⟨4 :: (secret ++ secret)⟩
  getID pubkey := BitVec.ofNat 160 (fromLittleEndian pubkey.vch)
  getHash pubkey := BitVec.ofNat 256 (fromLittleEndian pubkey.vch)
  encrypt chKey _ secret := if chKey.length = 32 then some (chKey ++ secret) else none
  decrypt chKey _ cipher := if cipher.take 32 = chKey then some (cipher.drop 32) else none

theorem prefixCrypto_keyed : prefixCrypto.Keyed := by
  have hcipher : ∀ {chKey chIV secret cipher : List UInt8},
      prefixCrypto.encrypt chKey chIV secret = some cipher →
        chKey.length = 32 ∧ chKey ++ secret = cipher := by
    intro chKey chIV secret cipher h
    simpa [prefixCrypto] using h
  refine ⟨fun chKey chIV secret hkey _ => ⟨chKey ++ secret,if_pos hkey⟩,?_,?_,?_⟩
  · intro chKey chIV secret cipher h
    obtain ⟨hlen,rfl⟩ := hcipher h
    simp [prefixCrypto,← hlen]
  · intro chKey chKey' chIV secret secret' cipher fCompressed h hne hdec
    obtain ⟨hlen,rfl⟩ := hcipher h
    simp only [prefixCrypto,Option.ite_none_right_eq_some,← hlen,List.take_left] at hdec
    exact absurd hdec.1.symm hne
  · intro secret fCompressed
    cases fCompressed with
    | true => rfl
    | false => rfl

namespace KeyHistory

def keyOfByte (b : UInt8) (h : checkSecret (b :: List.replicate 31 1) = true) : CKey :=
  ⟨true,true,b :: List.replicate 31 1,rfl,fun _ => h⟩

/-- A key before the encryption, a wrong candidate and the right one, a key after it, and a
lock. -/
def encryptAndAdd : List StoreCall :=
  [.addKeyPubKey (keyOfByte 3 (by decide)) ⟨2 :: 3 :: List.replicate 31 1⟩,
    .encryptKeys (List.replicate 32 9),.unlock (List.replicate 32 8),
    .unlock (List.replicate 32 9),
    .addKeyPubKey (keyOfByte 5 (by decide)) ⟨2 :: 5 :: List.replicate 31 1⟩,.lock]

theorem keyStore_sealed_added : ∃ h, runAdmitted (step prefixCrypto) (admits prefixCrypto) create
      encryptAndAdd = some h ∧ h.added.entries.length = 2 ∧ h.store.isLocked = true ∧
    (∀ vMasterKeyIn, (∃ store, h.store.unlock prefixCrypto vMasterKeyIn = some (true,store)) ↔
      vMasterKeyIn = List.replicate 32 9) ∧
    ∀ address, h.store.getKey prefixCrypto address = none := by
  have hmap : (runAdmitted (step prefixCrypto) (admits prefixCrypto) create encryptAndAdd).map
      (fun h => (h.added.entries.length,h.store.isLocked,h.store.isCrypted,h.encryptedWith)) =
        some (2,true,true,some (List.replicate 32 9)) := by
    decide +kernel
  obtain ⟨h,hrun,hh⟩ := Option.map_eq_some_iff.mp hmap
  simp only [Prod.mk.injEq] at hh
  obtain ⟨hlen,hlocked,hcrypted,hkey⟩ := hh
  obtain ⟨hsealed,-,hnothing⟩ := keyStore_sealed prefixCrypto_keyed (ReachableBy.init.of_run hrun)
  obtain ⟨vMasterKey,hwith,-,-,hunlock⟩ := hsealed hcrypted
  rw [hkey] at hwith
  obtain rfl := Option.some.inj hwith
  exact ⟨h,hrun,hlen,hlocked,hunlock,hnothing hlocked⟩

end KeyHistory

end KeyStore

end Anoncoin
