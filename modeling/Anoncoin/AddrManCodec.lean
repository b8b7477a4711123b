import Anoncoin.Serialize
import Anoncoin.AddrMan

/-!
The address manager in peers.dat: `Serialize` and `Unserialize` of addrman.h.
-/

set_option autoImplicit false

namespace Anoncoin
open Lib

def CNetAddr.serialize (a : CNetAddr) : List UInt8 := a.ip ++ a.i2pDest

def CNetAddr.unserialize : Reader ReadFailure CNetAddr := do
  let ip ← take .endOfData 16
  let i2pDest ← take .endOfData I2P_DESTINATION_STORE
  if h : ip.length = 16 ∧ i2pDest.length = I2P_DESTINATION_STORE then pure ⟨ip,i2pDest,h.1,h.2⟩
  else throw .endOfData

/-- The port is written in network order. -/
def CService.serialize (s : CService) : List UInt8 :=
  s.toCNetAddr.serialize ++ [UInt8.ofNat (s.port.toNat/256),UInt8.ofNat (s.port.toNat%256)]

def CService.unserialize : Reader ReadFailure CService := do
  let a ← CNetAddr.unserialize
  let high ← readUint 1
  let low ← readUint 1
  pure ⟨a,BitVec.ofNat 16 (256*high+low)⟩

/-- An address on disk, with the version of the client that wrote it. -/
def CAddress.serialize (nVersion : Uint32) (a : CAddress) : List UInt8 :=
  littleEndian 4 nVersion.toNat ++ (littleEndian 4 a.nTime.toNat ++ (littleEndian 8 a.nServices.toNat ++
    a.toCService.serialize))

def CAddress.unserialize : Reader ReadFailure CAddress := do
  let _ ← readUint 4
  let nTime ← readUint 4
  let nServices ← readUint 8
  let s ← CService.unserialize
  pure ⟨s,BitVec.ofNat 64 nServices,BitVec.ofNat 32 nTime⟩

/-- What is kept of an entry on disk. -/
structure AddrRecord where
  addr : CAddress
  source : CNetAddr
  nLastSuccess : Uint64
  nAttempts : Uint32
  deriving DecidableEq, Repr

def CAddrInfo.record (info : CAddrInfo) : AddrRecord :=
  ⟨info.toCAddress,info.source,info.nLastSuccess,info.nAttempts⟩

def AddrRecord.serialize (nVersion : Uint32) (r : AddrRecord) : List UInt8 :=
  r.addr.serialize nVersion ++ (r.source.serialize ++ (littleEndian 8 r.nLastSuccess.toNat ++
    littleEndian 4 r.nAttempts.toNat))

def AddrRecord.unserialize : Reader ReadFailure AddrRecord := do
  let addr ← CAddress.unserialize
  let source ← CNetAddr.unserialize
  let nLastSuccess ← readUint 8
  let nAttempts ← readUint 4
  pure ⟨addr,source,BitVec.ofNat 64 nLastSuccess,BitVec.ofNat 32 nAttempts⟩

namespace CAddrMan

/-- The entries in the order of `mapInfo`. -/
def infosInOrder (m : CAddrMan) : List (Nat × CAddrInfo) :=
  (m.mapInfo.keys.mergeSort fun a b => a ≤ b).filterMap fun nId =>
    (m.mapInfo.lookup nId).map fun info => (nId,info)

/-- A loop of `Serialize` over the entries: those that are meant are written, no more than
were counted. -/
def writeInfos (nVersion : Uint32) (meant : CAddrInfo → Bool) (nCount : Int) :
    List (Nat × CAddrInfo) → Nat → Option (List UInt8)
  | [],_ => some []
  | (_,info) :: rest,nIds =>
      if meant info then do
        guard ((nIds : Int) ≠ nCount)
        let bytes ← writeInfos nVersion meant nCount rest (nIds+1)
        pure (info.record.serialize nVersion ++ bytes)
      else writeInfos nVersion meant nCount rest nIds

/-- `mapUnkIds`: the number of an entry among those that are written as new ones. -/
def unkId (nId : Nat) : List (Nat × CAddrInfo) → Nat → Nat
  | [],_ => 0
  | (j,info) :: rest,nIds =>
      if j = nId then nIds else unkId nId rest (if info.nRefCount ≠ 0 then nIds+1 else nIds)

/-- The ids in a bucket of the new table. -/
def bucketIds (m : CAddrMan) (bucket : Fin ADDRMAN_NEW_BUCKET_COUNT) : List Nat :=
  (List.finRange ADDRMAN_BUCKET_SIZE).filterMap fun i => m.vvNew (bucket,i)

def writeBucket (m : CAddrMan) (bucket : Fin ADDRMAN_NEW_BUCKET_COUNT) : List UInt8 :=
  writeInt 4 (m.bucketIds bucket).length ++
    (m.bucketIds bucket).flatMap fun nId => writeInt 4 (unkId nId m.infosInOrder 0)

def serialize (nVersion : Uint32) (m : CAddrMan) : Option (List UInt8) := do
  let new ← writeInfos nVersion (fun info => info.nRefCount ≠ 0) m.nNew m.infosInOrder 0
  let tried ← writeInfos nVersion (fun info => info.fInTried) m.nTried m.infosInOrder 0
  pure (littleEndian 1 1 ++ (littleEndian 1 32 ++ (littleEndian 32 m.nKey.toNat ++
    (writeInt 4 m.nNew ++ (writeInt 4 m.nTried ++
    (littleEndian 4 (ADDRMAN_NEW_BUCKET_COUNT ^^^ 2^30) ++ (new ++ (tried ++
    (List.finRange ADDRMAN_NEW_BUCKET_COUNT).flatMap m.writeBucket))))))))

/-- A failed read, a key of another size, or an assertion. -/
inductive LoadFailure where
  | read (e : ReadFailure)
  | keySize
  | assertion
  deriving DecidableEq, Repr

/-- The content of peers.dat, before the tables are built from it. -/
structure PeersFile where
  nVersion : Nat
  nKey : Uint256
  nNew : Int
  nTried : Int
  nUBuckets : Int
  new : List AddrRecord
  tried : List AddrRecord
  buckets : List (List Int)

def readBucket : Reader ReadFailure (List Int) := do
  let nSize ← readInt 4
  readMany (readInt 4) nSize.toNat

/-- What `Unserialize` reads after the size of the key. -/
def readTables (nVersion : Nat) : Reader ReadFailure PeersFile := do
  let nKey ← readUint 32
  let nNew ← readInt 4
  let nTried ← readInt 4
  let nUBuckets ← readUint 4
  let nUBuckets : Uint32 := if nVersion ≠ 0 then BitVec.ofNat 32 nUBuckets ^^^ (1 <<< 30)
    else BitVec.ofNat 32 nUBuckets
  let new ← readMany AddrRecord.unserialize nNew.toNat
  let tried ← readMany AddrRecord.unserialize nTried.toNat
  let buckets ← readMany readBucket nUBuckets.toInt.toNat
  pure ⟨nVersion,BitVec.ofNat 256 nKey,nNew,nTried,nUBuckets.toInt,new,tried,buckets⟩

def readPeers : Reader LoadFailure PeersFile := do
  let nVersion ← (readUint 1).adaptExcept .read
  let nKeySize ← (readUint 1).adaptExcept .read
  if nKeySize ≠ 32 then throw .keySize
  else (readTables nVersion).adaptExcept .read

section Load
variable (H : AddrHashes) (nDefaultPort : Uint16)

/-- The address of an entry as it is read, without the upper service bits. -/
def readAddress (r : AddrRecord) : CAddress := { r.addr with nServices := r.addr.nServices &&& 0xFF }

/-- The port of a new entry: none for an I2P destination, and never zero for others. -/
def portOf (addr : CAddress) : Uint16 :=
  if addr.isI2P then 0 else if addr.port = 0 then nDefaultPort else addr.port

/-- The address of a new entry. -/
def newAddress (r : AddrRecord) : CAddress :=
  { (readAddress r).withGarlic with port := portOf nDefaultPort (readAddress r).withGarlic }

theorem newAddress_garlic (r : AddrRecord) :
    (newAddress nDefaultPort r).isNativeI2P = true → (newAddress nDefaultPort r).isI2P = true :=
  (readAddress r).withGarlic_garlic

/-- The hash of an I2P destination that is loaded goes into the index. -/
def indexLoaded (m : CAddrMan) (addr : CNetAddr) (nId : Nat) : CAddrMan :=
  if addr.isI2P then m.indexHash H addr nId else m

/-- Entry `n` of the new table. `mapAddr` gets the address as it was read. When the positions
on disk are of no use the entry gets a slot at once. -/
def loadNew (f : PeersFile) (m : CAddrMan) (r : AddrRecord) (n : Nat) : CAddrMan :=
  let addr := newAddress nDefaultPort r
  let info : CAddrInfo := ⟨addr,r.source,0,r.nLastSuccess,r.nAttempts,0,false,m.vRandom.length,
    newAddress_garlic nDefaultPort r⟩
  let m := { m with
    mapInfo := m.mapInfo.insert n info
    mapAddr := m.mapAddr.insert r.addr.toCNetAddr n
    vRandom := m.vRandom ++ [n] }
  let m := m.indexLoaded H addr.toCNetAddr n
  if f.nVersion ≠ 1 ∨ f.nUBuckets ≠ ADDRMAN_NEW_BUCKET_COUNT then
    let slot := H.newSlot m.nKey info.toCService info.source
    if m.vvNew slot = none then
      (m.setInfo n { info with nRefCount := info.nRefCount+1 }).setNew slot (some n)
    else m
  else m

/-- An entry of the tried table, with the number of those that found no place. `GetKey` asserts
that an I2P destination is marked as one; the changes to the address that follow are made to a
copy. -/
def loadTried (state : CAddrMan × Nat) (r : AddrRecord) : Option (CAddrMan × Nat) :=
  let m := state.1
  let nLost := state.2
  let addr := readAddress r
  if garlic : addr.isNativeI2P = true → addr.isI2P = true then
    let info : CAddrInfo :=
      ⟨addr,r.source,0,r.nLastSuccess,r.nAttempts,0,true,m.vRandom.length,garlic⟩
    let slot := H.triedSlot m.nKey info.toCService
    if m.vvTried slot = none then
      let nId := m.nIdCount
      let m := { m with
        nIdCount := m.nIdCount+1
        mapInfo := m.mapInfo.insert nId info
        mapAddr := m.mapAddr.insert info.toCNetAddr nId
        vRandom := m.vRandom ++ [nId] }
      some ((m.setTried slot (some nId)).indexLoaded H addr.withGarlic.toCNetAddr nId,nLost)
    else some (m,nLost+1)
  else none

/-- One more reference for a new entry, at the position that its key gives in the bucket. -/
def placeNew (f : PeersFile) (bucket : Nat) (m : CAddrMan) (nIndex : Int) : CAddrMan :=
  if 0 ≤ nIndex ∧ nIndex < m.nNew then
    match m.mapInfo.lookup nIndex.toNat with
    | none => m
    | some info =>
        if h : bucket < ADDRMAN_NEW_BUCKET_COUNT then
          let slot : NewSlot := (⟨bucket,h⟩,H.getBucketPosition m.nKey info.toCService true bucket)
          if f.nVersion = 1 ∧ f.nUBuckets = ADDRMAN_NEW_BUCKET_COUNT ∧ m.vvNew slot = none ∧
              info.nRefCount < ADDRMAN_NEW_BUCKETS_PER_ADDRESS then
            (m.setInfo nIndex.toNat { info with nRefCount := info.nRefCount+1 }).setNew slot
              (some nIndex.toNat)
          else m
        else m
  else m

def placeBucket (f : PeersFile) (m : CAddrMan) (ids : List Int) (bucket : Nat) : CAddrMan :=
  ids.foldl (placeNew H f bucket) m

/-- The entries that got no slot go. -/
def prune (m : CAddrMan) : List (Nat × CAddrInfo) → Option CAddrMan
  | [] => some m
  | (nId,info) :: rest =>
      if info.fInTried = false ∧ info.nRefCount = 0 then do
        let m ← m.delete nId
        prune m rest
      else prune m rest

/-- The tables from the content of the file. -/
def load (f : PeersFile) : Option CAddrMan := do
  let m : CAddrMan := { empty f.nKey with nNew := f.nNew, nTried := f.nTried }
  let m := f.new.zipIdx.foldl (fun m e => loadNew H nDefaultPort f m e.1 e.2) m
  let m := { m with nIdCount := f.nNew.toNat }
  let loaded ← f.tried.foldlM (loadTried H) (m,0)
  let m := { loaded.1 with nTried := loaded.1.nTried-loaded.2 }
  let m := f.buckets.zipIdx.foldl (fun m e => placeBucket H f m e.1 e.2) m
  m.prune m.infosInOrder

def unserialize : Reader LoadFailure CAddrMan := do
  let f ← readPeers
  match load H nDefaultPort f with
  | none => throw .assertion
  | some m => pure m

end Load

end CAddrMan

end Anoncoin
