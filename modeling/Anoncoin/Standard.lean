import Anoncoin.Compressor
import Anoncoin.KeyStore
import Anoncoin.SigOps
set_option autoImplicit false

/-!
The standard forms of an output script: Solver with its templates, ExtractDestination, and
IsMine over the wallet's key store.
-/

namespace Anoncoin

inductive TxnOutType where
  | nonstandard
  | pubkey
  | pubkeyhash
  | scripthash
  | multisig
  | nullData
  deriving DecidableEq, Repr

def MAX_OP_RETURN_RELAY : Nat := 80

def OP_SMALLDATA : UInt8 := 0xf9

def OP_SMALLINTEGER : UInt8 := 0xfa

def OP_PUBKEYS : UInt8 := 0xfb

def OP_PUBKEYHASH : UInt8 := 0xfd

def OP_PUBKEY : UInt8 := 0xfe

/-- The templates in the order of the multimap. None of their opcodes has an operand. -/
def templates (fDataCarrier : Bool) : List (TxnOutType × List UInt8) :=
  [(.pubkey,[OP_PUBKEY,OP_CHECKSIG]),
    (.pubkeyhash,[OP_DUP,OP_HASH160,OP_PUBKEYHASH,OP_EQUALVERIFY,OP_CHECKSIG]),
    (.multisig,[OP_SMALLINTEGER,OP_PUBKEYS,OP_SMALLINTEGER,OP_CHECKMULTISIG])] ++
  (if fDataCarrier then [(.nullData,[OP_RETURN,OP_SMALLDATA])] else []) ++
  [(.nullData,[OP_RETURN])]

/-- The inner loop at OP_PUBKEYS: the instruction after the keys, the rest, the solutions. -/
def takePubKeys : Nat → Op → CScript → List Valtype → Op × CScript × List Valtype
  | 0,op1,pc1,vSolutions => (op1,pc1,vSolutions)
  | fuel+1,op1,pc1,vSolutions =>
    if 33 ≤ op1.data.length ∧ op1.data.length ≤ 65 then
      match getOp pc1 with
      | (some op,pc) => takePubKeys fuel op pc (vSolutions ++ [op1.data])
      | (none,pc) => (⟨OP_INVALIDOPCODE,[]⟩,pc,vSolutions ++ [op1.data])
    else (op1,pc1,vSolutions)

/-- One instruction against one opcode of the template. -/
def matchOp (opcode2 : UInt8) (op1 : Op) (vSolutions : List Valtype) : Option (List Valtype) :=
  if opcode2 = OP_PUBKEY then
    if op1.data.length < 33 ∨ 65 < op1.data.length then none else some (vSolutions ++ [op1.data])
  else if opcode2 = OP_PUBKEYHASH then
    if op1.data.length ≠ 20 then none else some (vSolutions ++ [op1.data])
  else if opcode2 = OP_SMALLINTEGER then
    if op1.opcode = 0 ∨ (OP_1 ≤ op1.opcode ∧ op1.opcode ≤ OP_16) then
      some (vSolutions ++ [[UInt8.ofNat (decodeOpN op1.opcode)]])
    else none
  else if opcode2 = OP_SMALLDATA then
    if MAX_OP_RETURN_RELAY < op1.data.length then none else some vSolutions
  else if op1.opcode ≠ opcode2 ∨ op1.data ≠ [] then none
  else some vSolutions

/-- The loop that compares a script with a template. -/
def matchTemplate : List UInt8 → CScript → List Valtype → Option (List Valtype)
  | [],pc1,vSolutions => if pc1 = [] then some vSolutions else none
  | opcode2 :: pc2,pc1,vSolutions =>
    match getOp pc1 with
    | (none,_) => none
    | (some op1,pc1) =>
      if opcode2 = OP_PUBKEYS then
        let (op1,pc1,vSolutions) := takePubKeys (pc1.length+1) op1 pc1 vSolutions
        match pc2 with
        | [] => none
        | opcode2 :: pc2 => (matchOp opcode2 op1 vSolutions).bind (matchTemplate pc2 pc1)
      else (matchOp opcode2 op1 vSolutions).bind (matchTemplate pc2 pc1)

/-- The additional checks for a match of the multisignature template. -/
def multisigChecked (vSolutions : List Valtype) : Bool :=
  let m := (vSolutions.headD []).headD 0
  let n := (vSolutions.getLastD []).headD 0
  !(decide (m < 1) || decide (n < 1) || decide (n < m) || decide (vSolutions.length-2 ≠ n.toNat))

def scanTemplates (script1 : CScript) :
    List (TxnOutType × List UInt8) → Bool × TxnOutType × List Valtype
  | [] => (false,.nonstandard,[])
  | tplate :: rest =>
    match matchTemplate tplate.2 script1 [] with
    | none => scanTemplates script1 rest
    | some vSolutions =>
      if tplate.1 = .multisig then (multisigChecked vSolutions,.multisig,vSolutions)
      else (true,tplate.1,vSolutions)

/-- The result with typeRet and vSolutionsRet. -/
def solver (fDataCarrier : Bool) (scriptPubKey : CScript) : Bool × TxnOutType × List Valtype :=
  if scriptPubKey.isPayToScriptHash then (true,.scripthash,[(scriptPubKey.drop 2).take 20])
  else scanTemplates scriptPubKey (templates fDataCarrier)

abbrev CScriptID := BitVec 160

def uint160 (vch : Valtype) : BitVec 160 := BitVec.ofNat 160 (fromLittleEndian vch)

/-- `CPubKey(vch)`: data of the wrong length makes an invalid key. -/
def CPubKey.ofBytes (vch : Valtype) : CPubKey :=
  if vch.length ≠ 0 ∧ vch.length = getLen (vch.headD 0xff) then ⟨vch⟩ else ⟨[0xff]⟩

inductive CTxDestination where
  | noDestination
  | keyID (id : CKeyID)
  | scriptID (id : CScriptID)
  deriving DecidableEq, Repr

def extractDestination (getID : CPubKey → CKeyID) (fDataCarrier : Bool) (scriptPubKey : CScript) :
    Option CTxDestination :=
  match solver fDataCarrier scriptPubKey with
  | (true,.pubkey,vSolutions) => some (.keyID (getID (.ofBytes (vSolutions.headD []))))
  | (true,.pubkeyhash,vSolutions) => some (.keyID (uint160 (vSolutions.headD [])))
  | (true,.scripthash,vSolutions) => some (.scriptID (uint160 (vSolutions.headD [])))
  | _ => none

/-- The wallet's key store: keys, redeem scripts and watched scripts. -/
structure CWalletKeys where
  keys : CCryptoKeyStore
  mapScripts : AList fun _ : CScriptID => CScript
  setWatchOnly : List CScript

namespace CWalletKeys

def haveKey (s : CWalletKeys) (address : CKeyID) : Bool :=
  if !s.keys.isCrypted then (s.keys.mapKeys.lookup address).isSome
  else (s.keys.mapCryptedKeys.lookup address).isSome

def getCScript (s : CWalletKeys) (hash : CScriptID) : Option CScript := s.mapScripts.lookup hash

def haveWatchOnly (s : CWalletKeys) (dest : CScript) : Bool := s.setWatchOnly.contains dest

end CWalletKeys

inductive IsMineType where
  | no
  | watchOnly
  | spendable
  deriving DecidableEq, Repr

/-- The value of the enumeration, for the filters. -/
def IsMineType.bits : IsMineType → UInt8
  | .no => 0
  | .watchOnly => 1
  | .spendable => 2

def ISMINE_WATCH_ONLY : UInt8 := 1

def ISMINE_SPENDABLE : UInt8 := 2

def ISMINE_ALL : UInt8 := 3

section
variable (getID : CPubKey → CKeyID) (fDataCarrier : Bool)

def haveKeys (s : CWalletKeys) (pubkeys : List Valtype) : Nat :=
  pubkeys.countP fun pubkey => s.haveKey (getID (.ofBytes pubkey))

def watched (s : CWalletKeys) (scriptPubKey : CScript) : IsMineType :=
  if s.haveWatchOnly scriptPubKey then .watchOnly else .no

/-- IsMine with a bound on its recursion through redeem scripts. -/
def isMineFrom (s : CWalletKeys) : Nat → CScript → Option IsMineType
  | 0,_ => none
  | fuel+1,scriptPubKey =>
    match solver fDataCarrier scriptPubKey with
    | (false,_,_) => some (watched s scriptPubKey)
    | (true,.nonstandard,_) => some (watched s scriptPubKey)
    | (true,.nullData,_) => some (watched s scriptPubKey)
    | (true,.pubkey,vSolutions) =>
      if s.haveKey (getID (.ofBytes (vSolutions.headD []))) then some .spendable
      else some (watched s scriptPubKey)
    | (true,.pubkeyhash,vSolutions) =>
      if s.haveKey (uint160 (vSolutions.headD [])) then some .spendable
      else some (watched s scriptPubKey)
    | (true,.scripthash,vSolutions) =>
      match s.getCScript (uint160 (vSolutions.headD [])) with
      | none => some (watched s scriptPubKey)
      | some subscript =>
        (isMineFrom s fuel subscript).map fun ret =>
          if ret = .spendable then ret else watched s scriptPubKey
    | (true,.multisig,vSolutions) =>
      let keys := (vSolutions.drop 1).dropLast
      if haveKeys getID s keys = keys.length then some .spendable
      else some (watched s scriptPubKey)

/-- Each level reads another redeem script, so more levels than scripts mean that the scripts
lead back to one another; then the recursion does not return. -/
def CWalletKeys.isMine (s : CWalletKeys) (scriptPubKey : CScript) : Option IsMineType :=
  isMineFrom getID fDataCarrier s (s.mapScripts.entries.length+1) scriptPubKey

end

end Anoncoin
