import Mathlib.Data.List.AList
import Mathlib.Data.Fintype.Prod
import Anoncoin.NetAddr

/-!
The address manager of addrman.cpp: the tables of new and tried addresses and the
operations on them. `none` stands for an assertion that fails.
-/

set_option autoImplicit false

namespace Anoncoin

/-- An address with its services and the time it was last seen. -/
structure CAddress extends CService where
  nServices : Uint64
  nTime : Uint32
  deriving DecidableEq, Repr

/-- The address that `Add_` works on. -/
def CAddress.withGarlic (addrIn : CAddress) : CAddress :=
  { addrIn with toCNetAddr := addrIn.toCNetAddr.checkAndSetGarlicCat.1 }

theorem CAddress.withGarlic_garlic (addrIn : CAddress) :
    addrIn.withGarlic.isNativeI2P = true → addrIn.withGarlic.isI2P = true :=
  CNetAddr.isI2P_of_native

/-- What the manager keeps about an address. The signed 64-bit and 32-bit fields are kept as
their bits. Every address in the manager that has an I2P destination is marked as one, which
is what `GetKey` asserts. -/
structure CAddrInfo extends CAddress where
  source : CNetAddr
  nLastTry : Uint64
  nLastSuccess : Uint64
  nAttempts : Uint32
  nRefCount : Int
  fInTried : Bool
  nRandomPos : Int
  garlic : toCNetAddr.isNativeI2P = true → toCNetAddr.isI2P = true
  deriving DecidableEq, Repr

def ADDRMAN_TRIED_BUCKET_COUNT : Nat := 256

def ADDRMAN_NEW_BUCKET_COUNT : Nat := 1024

def ADDRMAN_BUCKET_SIZE : Nat := 64

def ADDRMAN_TRIED_BUCKETS_PER_GROUP : Nat := 8

def ADDRMAN_NEW_BUCKETS_PER_SOURCE_GROUP : Nat := 64

def ADDRMAN_NEW_BUCKETS_PER_ADDRESS : Nat := 8

def ADDRMAN_HORIZON_DAYS : Nat := 10

def ADDRMAN_RETRIES : Nat := 3

def ADDRMAN_MAX_FAILURES : Nat := 7

def ADDRMAN_MIN_FAIL_DAYS : Nat := 7

def ADDRMAN_GETADDR_MAX_PCT : Nat := 70

def ADDRMAN_GETADDR_MAX : Nat := 625

/-- A bucket and a position in it. -/
abbrev NewSlot := Fin ADDRMAN_NEW_BUCKET_COUNT × Fin ADDRMAN_BUCKET_SIZE

abbrev TriedSlot := Fin ADDRMAN_TRIED_BUCKET_COUNT × Fin ADDRMAN_BUCKET_SIZE

instance : NeZero ADDRMAN_NEW_BUCKET_COUNT := ⟨by decide⟩

instance : NeZero ADDRMAN_TRIED_BUCKET_COUNT := ⟨by decide⟩

instance : NeZero ADDRMAN_BUCKET_SIZE := ⟨by decide⟩

/-- `Hash`, and `GetI2pDestinationHash`. -/
structure AddrHashes where
  hash : List UInt8 → Uint256
  getI2pDestinationHash : List UInt8 → Uint256

namespace AddrHashes
variable (H : AddrHashes) (nKey : Uint256)

/-- `Hash(ss.begin(), ss.end()).GetLow64()`. -/
def low64 (ss : List UInt8) : Nat := (H.hash ss).toNat%2^64

def keyBytes : List UInt8 := littleEndian 32 nKey.toNat

def getTriedBucket (s : CService) : Fin ADDRMAN_TRIED_BUCKET_COUNT :=
  let hash1 := H.low64 (keyBytes nKey ++ serializeBytes s.getKey)
  Fin.ofNat _ (H.low64 (keyBytes nKey ++ serializeBytes s.getGroup ++
    littleEndian 8 (hash1%ADDRMAN_TRIED_BUCKETS_PER_GROUP)))

def getNewBucket (a src : CNetAddr) : Fin ADDRMAN_NEW_BUCKET_COUNT :=
  let hash1 := H.low64 (keyBytes nKey ++ serializeBytes a.getGroup ++ serializeBytes src.getGroup)
  Fin.ofNat _ (H.low64 (keyBytes nKey ++ serializeBytes src.getGroup ++
    littleEndian 8 (hash1%ADDRMAN_NEW_BUCKETS_PER_SOURCE_GROUP)))

def getBucketPosition (s : CService) (fNew : Bool) (nBucket : Nat) : Fin ADDRMAN_BUCKET_SIZE :=
  Fin.ofNat _ (H.low64 (keyBytes nKey ++ [if fNew then 78 else 75] ++ littleEndian 4 nBucket ++
    serializeBytes s.getKey))

/-- Where an entry goes in the tried table. -/
def triedSlot (s : CService) : TriedSlot :=
  let nKBucket := H.getTriedBucket nKey s
  (nKBucket,H.getBucketPosition nKey s false nKBucket)

/-- Where an entry from a source goes in the new table. -/
def newSlot (s : CService) (src : CNetAddr) : NewSlot :=
  let nUBucket := H.getNewBucket nKey s.toCNetAddr src
  (nUBucket,H.getBucketPosition nKey s true nUBucket)

end AddrHashes

namespace CAddrInfo

def isTerrible (info : CAddrInfo) (nNow : Int) : Bool :=
  if info.nLastTry.toInt ≠ 0 ∧ nNow-60 ≤ info.nLastTry.toInt then false
  else if nNow+10*60 < info.nTime.toNat then true
  else if info.nTime.toNat = 0 ∨ (ADDRMAN_HORIZON_DAYS : Int)*24*60*60 < nNow-info.nTime.toNat then
    true
  else if info.nLastSuccess.toInt = 0 ∧ (ADDRMAN_RETRIES : Int) ≤ info.nAttempts.toInt then true
  else if (ADDRMAN_MIN_FAIL_DAYS : Int)*24*60*60 < nNow-info.nLastSuccess.toInt ∧
      (ADDRMAN_MAX_FAILURES : Int) ≤ info.nAttempts.toInt then true
  else false

end CAddrInfo

structure CAddrMan where
  nKey : Uint256
  nIdCount : Nat
  mapInfo : AList fun _ : Nat => CAddrInfo
  mapAddr : AList fun _ : CNetAddr => Nat
  vRandom : List Nat
  nTried : Int
  vvTried : TriedSlot → Option Nat
  nNew : Int
  vvNew : NewSlot → Option Nat
  mapI2pHashes : AList fun _ : Uint256 => Nat

namespace CAddrMan

/-- A new manager; `Clear` draws the key. -/
def empty (nKey : Uint256) : CAddrMan :=
  ⟨nKey,0,∅,∅,[],0,fun _ => none,0,fun _ => none,∅⟩

def setInfo (m : CAddrMan) (nId : Nat) (info : CAddrInfo) : CAddrMan :=
  { m with mapInfo := m.mapInfo.insert nId info }

def setNew (m : CAddrMan) (s : NewSlot) (v : Option Nat) : CAddrMan :=
  { m with vvNew := Function.update m.vvNew s v }

def setTried (m : CAddrMan) (s : TriedSlot) (v : Option Nat) : CAddrMan :=
  { m with vvTried := Function.update m.vvTried s v }

/-- `Find`. -/
def find (m : CAddrMan) (addr : CNetAddr) : Option (Nat × CAddrInfo) := do
  let nId ← m.mapAddr.lookup addr
  let info ← m.mapInfo.lookup nId
  pure (nId,info)

section Operations
variable (H : AddrHashes)

/-- An I2P destination is indexed by its hash unless the hash is there already. -/
def indexHash (m : CAddrMan) (addr : CNetAddr) (nId : Nat) : CAddrMan :=
  let b32hash := H.getI2pDestinationHash addr.getI2pDestination
  if (m.mapI2pHashes.lookup b32hash).isSome then m
  else { m with mapI2pHashes := m.mapI2pHashes.insert b32hash nId }

def create (m : CAddrMan) (addr : CAddress) (garlic : addr.isNativeI2P = true → addr.isI2P = true)
    (addrSource : CNetAddr) : Option (Nat × CAddrMan) := do
  let nId := m.nIdCount
  let info : CAddrInfo := ⟨addr,addrSource,0,0,0,0,false,m.vRandom.length,garlic⟩
  let m := { m with
    nIdCount := m.nIdCount+1
    mapInfo := m.mapInfo.insert nId info
    mapAddr := m.mapAddr.insert addr.toCNetAddr nId
    vRandom := m.vRandom ++ [nId] }
  if addr.isI2P then do
    guard addr.isNativeI2P
    pure (nId,m.indexHash H addr.toCNetAddr nId)
  else pure (nId,m)

def swapRandom (m : CAddrMan) (nRndPos1 nRndPos2 : Int) : Option CAddrMan :=
  if nRndPos1 = nRndPos2 then some m
  else do
    guard (0 ≤ nRndPos1 ∧ nRndPos1 < m.vRandom.length ∧ 0 ≤ nRndPos2 ∧ nRndPos2 < m.vRandom.length)
    let nId1 ← m.vRandom[nRndPos1.toNat]?
    let nId2 ← m.vRandom[nRndPos2.toNat]?
    let info1 ← m.mapInfo.lookup nId1
    let _ ← m.mapInfo.lookup nId2
    let m := m.setInfo nId1 { info1 with nRandomPos := nRndPos2 }
    let info2 ← m.mapInfo.lookup nId2
    let m := m.setInfo nId2 { info2 with nRandomPos := nRndPos1 }
    pure { m with vRandom := (m.vRandom.set nRndPos1.toNat nId2).set nRndPos2.toNat nId1 }

def delete (m : CAddrMan) (nId : Nat) : Option CAddrMan := do
  let info ← m.mapInfo.lookup nId
  guard (info.fInTried = false)
  guard (info.nRefCount = 0)
  let m ← m.swapRandom info.nRandomPos (m.vRandom.length-1)
  pure { m with
    vRandom := m.vRandom.dropLast
    mapAddr := m.mapAddr.erase info.toCNetAddr
    mapInfo := m.mapInfo.erase nId
    nNew := m.nNew-1 }

def checkAndDeleteB32Hash (m : CAddrMan) (nID : Nat) (aTerrible : CAddrInfo) : CAddrMan :=
  if aTerrible.isI2P then
    let b32hash := H.getI2pDestinationHash aTerrible.getI2pDestination
    if m.mapI2pHashes.lookup b32hash = some nID then
      { m with mapI2pHashes := m.mapI2pHashes.erase b32hash }
    else m
  else m

/-- `mapInfo[nIdDelete]` would make an empty record for an id without one, and the assertion
on the reference count would fail on it. -/
def clearNew (m : CAddrMan) (s : NewSlot) : Option CAddrMan :=
  match m.vvNew s with
  | none => some m
  | some nIdDelete => do
      let infoDelete ← m.mapInfo.lookup nIdDelete
      guard (0 < infoDelete.nRefCount)
      let infoDelete := { infoDelete with nRefCount := infoDelete.nRefCount-1 }
      let m := (m.setInfo nIdDelete infoDelete).setNew s none
      if infoDelete.nRefCount = 0 then
        (m.checkAndDeleteB32Hash H nIdDelete infoDelete).delete nIdDelete
      else pure m

/-- The loop over the new buckets at the start of `MakeTried`: the table and the reference
count after it. -/
def releaseNew (nKey : Uint256) (s : CService) (nId : Nat) (vvNew : NewSlot → Option Nat)
    (nRefCount : Int) : (NewSlot → Option Nat) × Int :=
  (List.finRange ADDRMAN_NEW_BUCKET_COUNT).foldl (fun r bucket =>
    let slot : NewSlot := (bucket,H.getBucketPosition nKey s true bucket)
    if r.1 slot = some nId then (Function.update r.1 slot none,r.2-1) else r) (vvNew,nRefCount)

/-- The entry in the way goes back to the new table. -/
def evict (m : CAddrMan) (s : TriedSlot) : Option CAddrMan :=
  match m.vvTried s with
  | none => some m
  | some nIdEvict => do
      let infoOld ← m.mapInfo.lookup nIdEvict
      let m := (m.setInfo nIdEvict { infoOld with fInTried := false }).setTried s none
      let m := { m with nTried := m.nTried-1 }
      let slot := H.newSlot m.nKey infoOld.toCService infoOld.source
      let m ← m.clearNew H slot
      guard (m.vvNew slot = none)
      let infoOld ← m.mapInfo.lookup nIdEvict
      let m := (m.setInfo nIdEvict { infoOld with nRefCount := 1 }).setNew slot (some nIdEvict)
      pure { m with nNew := m.nNew+1 }

def makeTried (m : CAddrMan) (nId : Nat) : Option CAddrMan := do
  let info ← m.mapInfo.lookup nId
  let (vvNew,nRefCount) := releaseNew H m.nKey info.toCService nId m.vvNew info.nRefCount
  let m := { m.setInfo nId { info with nRefCount := nRefCount } with
    vvNew := vvNew
    nNew := m.nNew-1 }
  guard (nRefCount = 0)
  let slot := H.triedSlot m.nKey info.toCService
  let m ← m.evict H slot
  guard (m.vvTried slot = none)
  let info ← m.mapInfo.lookup nId
  let m := (m.setInfo nId { info with fInTried := true }).setTried slot (some nId)
  pure { m with nTried := m.nTried+1 }

/-- `Good_`. The search for a bucket starts at a random one; what matters is whether there is
one. -/
def good_ (m : CAddrMan) (addr : CAddress) (nTime : Uint64) : Option CAddrMan :=
  match m.find addr.toCNetAddr with
  | none => some m
  | some (nId,info) => do
      guard (info.toCService ≠ addr.toCService → info.port ≠ addr.port)
      let info := { info with
        port := addr.port
        nServices := addr.nServices
        nLastSuccess := nTime
        nLastTry := nTime
        nAttempts := 0 }
      let m := m.setInfo nId info
      if info.fInTried then some m
      else if (List.finRange ADDRMAN_NEW_BUCKET_COUNT).any fun nB =>
          m.vvNew (nB,H.getBucketPosition m.nKey info.toCService true nB) == some nId then
        m.makeTried H nId
      else some m

/-- The end of `Add_`: one more reference for the entry, or none at all when the slot is
taken by an entry that stays. -/
def insertNew (m : CAddrMan) (nId : Nat) (source : CNetAddr) (nNow : Int) : Option CAddrMan := do
  let info ← m.mapInfo.lookup nId
  let slot := H.newSlot m.nKey info.toCService source
  if m.vvNew slot = some nId then pure m
  else do
    let fInsert ← match m.vvNew slot with
      | none => pure true
      | some nIdExisting => do
          let infoExisting ← m.mapInfo.lookup nIdExisting
          pure (infoExisting.isTerrible nNow ||
            decide (1 < infoExisting.nRefCount ∧ info.nRefCount = 0))
    if fInsert then do
      let m ← m.clearNew H slot
      let info ← m.mapInfo.lookup nId
      pure ((m.setInfo nId { info with nRefCount := info.nRefCount+1 }).setNew slot (some nId))
    else if info.nRefCount = 0 then m.delete nId
    else pure m

/-- What `Add_` changes in a record that it finds. -/
def refresh (info : CAddrInfo) (addr : CAddress) (source : CNetAddr) (nTimePenalty nNow : Int) :
    CAddrInfo :=
  let fCurrentlyOnline := decide (nNow-addr.nTime.toNat < 24*60*60)
  let nUpdateInterval : Int := if fCurrentlyOnline then 60*60 else 24*60*60
  let info := if addr.nTime ≠ 0 ∧ (info.nTime = 0 ∨
      (info.nTime.toNat : Int) < addr.nTime.toNat-nUpdateInterval-nTimePenalty) then
    { info with nTime := BitVec.ofInt 32 (max 0 (addr.nTime.toNat-nTimePenalty)) }
  else info
  if addr.toCNetAddr = source then { info with nServices := addr.nServices, port := addr.port }
  else info

/-- Whether `Add_` goes on to the table with a record that it found: the time is news, the
entry is not tried, it has not all its references yet, and the random choice allows one
more. -/
def wantsMore (info : CAddrInfo) (addr : CAddress) (rnd : Nat) : Bool :=
  !(addr.nTime = 0 ∨ (info.nTime ≠ 0 ∧ addr.nTime ≤ info.nTime)) && !info.fInTried &&
    !decide (info.nRefCount = ADDRMAN_NEW_BUCKETS_PER_ADDRESS) &&
    !decide (1 < 2^info.nRefCount.toNat ∧ rnd%2^info.nRefCount.toNat ≠ 0)

/-- `Add_`; `rnd` is the random number and `nNow` the adjusted time. -/
def add_ (m : CAddrMan) (addrIn : CAddress) (source : CNetAddr) (nTimePenalty nNow : Int)
    (rnd : Nat) : Option (Bool × CAddrMan) :=
  let addr := addrIn.withGarlic
  if !addr.isRoutable then some (false,m)
  else
    match m.find addr.toCNetAddr with
    | some (nId,info) => do
        let info := refresh info addr source nTimePenalty nNow
        let m := m.setInfo nId info
        if wantsMore info addr rnd then do
          let m ← m.insertNew H nId source nNow
          pure (false,m)
        else pure (false,m)
    | none => do
        let (nId,m) ← m.create H addr addrIn.withGarlic_garlic source
        let info ← m.mapInfo.lookup nId
        let m := m.setInfo nId
          { info with nTime := BitVec.ofInt 32 (max 0 (info.nTime.toNat-nTimePenalty)) }
        let m ← { m with nNew := m.nNew+1 }.insertNew H nId source nNow
        pure (true,m)

end Operations

def attempt_ (m : CAddrMan) (addr : CService) (nTime : Uint64) : CAddrMan :=
  match m.find addr.toCNetAddr with
  | none => m
  | some (nId,info) =>
      if info.toCService ≠ addr then m
      else m.setInfo nId { info with nLastTry := nTime, nAttempts := info.nAttempts+1 }

def connected_ (m : CAddrMan) (addr : CService) (nTime : Int) : CAddrMan :=
  match m.find addr.toCNetAddr with
  | none => m
  | some (nId,info) =>
      if info.toCService ≠ addr then m
      else if 20*60 < nTime-info.nTime.toNat then
        m.setInfo nId { info with nTime := BitVec.ofInt 32 nTime }
      else m

/-- The search of `Select_` in one of the tables. The slots that are looked at and the
outcome of the chance that an entry is given are random; the search goes on until an entry
is taken. -/
def selectFrom {σ : Type} (m : CAddrMan) (table : σ → Option Nat) :
    List (σ × Bool) → Option (Option CAddrInfo)
  | [] => some none
  | (slot,taken) :: rest =>
      match table slot with
      | none => selectFrom m table rest
      | some nId =>
          match m.mapInfo.lookup nId with
          | none => none
          | some info => if taken then some (some info) else selectFrom m table rest

/-- `Select_`, as far as it gets with the random choices. -/
def select_ (m : CAddrMan) (fTried : Bool) (tried : List (TriedSlot × Bool))
    (new : List (NewSlot × Bool)) : Option (Option CAddrInfo) :=
  if m.vRandom.length = 0 then some none
  else if 0 < m.nTried ∧ (m.nNew = 0 ∨ fTried) then m.selectFrom m.vvTried tried
  else m.selectFrom m.vvNew new

/-- The loop of `GetAddr_` from position `n` on. -/
def getAddrFrom (nNodes : Nat) (nNow : Int) (rnd : Nat → Nat) (m : CAddrMan) (vAddr : List CAddress)
    (n : Nat) : Nat → Option (List CAddress × CAddrMan)
  | 0 => some (vAddr,m)
  | left+1 =>
      if nNodes ≤ vAddr.length then some (vAddr,m)
      else do
        let nRndPos := rnd n%(m.vRandom.length-n)+n
        let m ← m.swapRandom n nRndPos
        let nId ← m.vRandom[n]?
        let ai ← m.mapInfo.lookup nId
        getAddrFrom nNodes nNow rnd m
          (if !ai.isTerrible nNow && !ai.isRFC1918 then vAddr ++ [ai.toCAddress] else vAddr)
          (n+1) left

def getAddr_ (m : CAddrMan) (nNow : Int) (rnd : Nat → Nat) : Option (List CAddress × CAddrMan) :=
  let nNodes := min ADDRMAN_GETADDR_MAX (ADDRMAN_GETADDR_MAX_PCT*m.vRandom.length/100)
  getAddrFrom nNodes nNow rnd m [] 0 m.vRandom.length

end CAddrMan

/-- The operations with their arguments, the clock and the random choices. -/
inductive AddrOp where
  | add (addr : CAddress) (source : CNetAddr) (nTimePenalty nNow : Int) (rnd : Nat)
  | good (addr : CAddress) (nTime : Uint64)
  | attempt (addr : CService) (nTime : Uint64)
  | connected (addr : CService) (nTime : Int)
  | select (fTried : Bool) (tried : List (TriedSlot × Bool)) (new : List (NewSlot × Bool))
  | getAddr (nNow : Int) (rnd : Nat → Nat)

def CAddrMan.step (H : AddrHashes) (m : CAddrMan) : AddrOp → Option CAddrMan
  | .add addr source nTimePenalty nNow rnd => (m.add_ H addr source nTimePenalty nNow rnd).map Prod.snd
  | .good addr nTime => m.good_ H addr nTime
  | .attempt addr nTime => some (m.attempt_ addr nTime)
  | .connected addr nTime => some (m.connected_ addr nTime)
  | .select fTried tried new => (m.select_ fTried tried new).map fun _ => m
  | .getAddr nNow rnd => (m.getAddr_ nNow rnd).map Prod.snd

end Anoncoin
