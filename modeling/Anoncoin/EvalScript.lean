import Anoncoin.Lib.Effects
import Anoncoin.Script

/-!
The script machine (script.cpp): `EvalScript` over its two stacks, and `VerifyScript`. The
stacks have their top first.
-/

set_option autoImplicit false

namespace Anoncoin
open Lib

inductive ScriptError where
  | evalFalse
  | opReturn
  | scriptSize
  | pushSize
  | opCount
  | stackSize
  | sigCount
  | pubkeyCount
  | verify
  | equalVerify
  | checkMultiSigVerify
  | checkSigVerify
  | numEqualVerify
  | badOpcode
  | disabledOpcode
  | invalidStackOperation
  | invalidAltstackOperation
  | unbalancedConditional
  | sigHashtype
  | sigDer
  | minimalData
  | sigPushOnly
  | sigNullDummy
  | pubkeyType
  | discourageUpgradableNops
  deriving DecidableEq, Repr

/-- How an evaluation can end early: with an error it reports, with a `scriptnum_error` that
it catches, with an access outside a stack, or with a failed assertion or an overflow. -/
inductive ScriptFailure where
  | error (serror : ScriptError)
  | scriptnumError
  | outOfRange
  | assertion
  deriving DecidableEq, Repr

/-- Computations that count the calls of `CheckSig`; the count survives a failure. -/
abbrev ScriptM := EStateM ScriptFailure Nat

def SCRIPT_VERIFY_DERSIG : Nat := 4

def SCRIPT_VERIFY_LOW_S : Nat := 8

def SCRIPT_VERIFY_NULLDUMMY : Nat := 16

def SCRIPT_VERIFY_SIGPUSHONLY : Nat := 32

def SCRIPT_VERIFY_MINIMALDATA : Nat := 64

def SCRIPT_VERIFY_DISCOURAGE_UPGRADABLE_NOPS : Nat := 128

/-- The digests of the crypto opcodes, each of its own size. -/
structure ScriptHashes where
  ripemd160 : List UInt8 → List UInt8
  sha1 : List UInt8 → List UInt8
  sha256 : List UInt8 → List UInt8
  hash160 : List UInt8 → List UInt8
  hash256 : List UInt8 → List UInt8
  length_ripemd160 : ∀ v, (ripemd160 v).length = 20
  length_sha1 : ∀ v, (sha1 v).length = 20
  length_sha256 : ∀ v, (sha256 v).length = 32
  length_hash160 : ∀ v, (hash160 v).length = 20
  length_hash256 : ∀ v, (hash256 v).length = 32

/-- `BaseSignatureChecker::CheckSig`, which may answer each call as it likes: it is also
given the number of calls before. -/
abbrev SignatureChecker := Nat → Valtype → Valtype → CScript → Bool

structure ScriptEnv where
  flags : Nat
  hashes : ScriptHashes
  checkSig : SignatureChecker

inductive ControlOp where
  | nop
  | upgradableNop
  | ifOp (negated : Bool)
  | elseOp
  | endif
  | verify
  | returnOp
  deriving DecidableEq, Repr

inductive StackOp where
  | drop2
  | dup2
  | dup3
  | over2
  | rot2
  | swap2
  | ifDup
  | depth
  | drop
  | dup
  | nip
  | over
  | pick
  | roll
  | rot
  | swap
  | tuck
  | size
  | equal
  | equalVerify
  deriving DecidableEq, Repr

inductive UnaryOp where
  | add1
  | sub1
  | negate
  | abs
  | not
  | notEqual0
  deriving DecidableEq, Repr

inductive BinaryOp where
  | add
  | sub
  | boolAnd
  | boolOr
  | numEqual
  | numEqualVerify
  | numNotEqual
  | lessThan
  | greaterThan
  | lessThanOrEqual
  | greaterThanOrEqual
  | min
  | max
  deriving DecidableEq, Repr

inductive HashOp where
  | ripemd160
  | sha1
  | sha256
  | hash160
  | hash256
  deriving DecidableEq, Repr

/-- The cases of the switch of `EvalScript`. -/
inductive Instruction where
  | value (n : Int)
  | control (op : ControlOp)
  | toAltStack
  | fromAltStack
  | stack (op : StackOp)
  | unary (op : UnaryOp)
  | binary (op : BinaryOp)
  | within
  | hash (op : HashOp)
  | codeSeparator
  | checkSig (verify : Bool)
  | checkMultiSig (verify : Bool)
  | unknown
  deriving DecidableEq, Repr

/-- `enum opcodetype`, from OP_1NEGATE on. -/
def instruction (opcode : UInt8) : Instruction :=
  match opcode.toNat with
  | 0x4f => .value (-1)
  | 0x51 => .value 1
  | 0x52 => .value 2
  | 0x53 => .value 3
  | 0x54 => .value 4
  | 0x55 => .value 5
  | 0x56 => .value 6
  | 0x57 => .value 7
  | 0x58 => .value 8
  | 0x59 => .value 9
  | 0x5a => .value 10
  | 0x5b => .value 11
  | 0x5c => .value 12
  | 0x5d => .value 13
  | 0x5e => .value 14
  | 0x5f => .value 15
  | 0x60 => .value 16
  | 0x61 => .control .nop
  | 0x63 => .control (.ifOp false)
  | 0x64 => .control (.ifOp true)
  | 0x67 => .control .elseOp
  | 0x68 => .control .endif
  | 0x69 => .control .verify
  | 0x6a => .control .returnOp
  | 0x6b => .toAltStack
  | 0x6c => .fromAltStack
  | 0x6d => .stack .drop2
  | 0x6e => .stack .dup2
  | 0x6f => .stack .dup3
  | 0x70 => .stack .over2
  | 0x71 => .stack .rot2
  | 0x72 => .stack .swap2
  | 0x73 => .stack .ifDup
  | 0x74 => .stack .depth
  | 0x75 => .stack .drop
  | 0x76 => .stack .dup
  | 0x77 => .stack .nip
  | 0x78 => .stack .over
  | 0x79 => .stack .pick
  | 0x7a => .stack .roll
  | 0x7b => .stack .rot
  | 0x7c => .stack .swap
  | 0x7d => .stack .tuck
  | 0x82 => .stack .size
  | 0x87 => .stack .equal
  | 0x88 => .stack .equalVerify
  | 0x8b => .unary .add1
  | 0x8c => .unary .sub1
  | 0x8f => .unary .negate
  | 0x90 => .unary .abs
  | 0x91 => .unary .not
  | 0x92 => .unary .notEqual0
  | 0x93 => .binary .add
  | 0x94 => .binary .sub
  | 0x9a => .binary .boolAnd
  | 0x9b => .binary .boolOr
  | 0x9c => .binary .numEqual
  | 0x9d => .binary .numEqualVerify
  | 0x9e => .binary .numNotEqual
  | 0x9f => .binary .lessThan
  | 0xa0 => .binary .greaterThan
  | 0xa1 => .binary .lessThanOrEqual
  | 0xa2 => .binary .greaterThanOrEqual
  | 0xa3 => .binary .min
  | 0xa4 => .binary .max
  | 0xa5 => .within
  | 0xa6 => .hash .ripemd160
  | 0xa7 => .hash .sha1
  | 0xa8 => .hash .sha256
  | 0xa9 => .hash .hash160
  | 0xaa => .hash .hash256
  | 0xab => .codeSeparator
  | 0xac => .checkSig false
  | 0xad => .checkSig true
  | 0xae => .checkMultiSig false
  | 0xaf => .checkMultiSig true
  | 0xb0 => .control .upgradableNop
  | 0xb1 => .control .upgradableNop
  | 0xb2 => .control .upgradableNop
  | 0xb3 => .control .upgradableNop
  | 0xb4 => .control .upgradableNop
  | 0xb5 => .control .upgradableNop
  | 0xb6 => .control .upgradableNop
  | 0xb7 => .control .upgradableNop
  | 0xb8 => .control .upgradableNop
  | 0xb9 => .control .upgradableNop
  | _ => .unknown

/-- OP_CAT, OP_SUBSTR, OP_LEFT, OP_RIGHT, OP_INVERT, OP_AND, OP_OR, OP_XOR, OP_2MUL, OP_2DIV,
OP_MUL, OP_DIV, OP_MOD, OP_LSHIFT and OP_RSHIFT. -/
def isDisabled (opcode : UInt8) : Bool :=
  [0x7e,0x7f,0x80,0x81,0x83,0x84,0x85,0x86,0x8d,0x8e,0x95,0x96,0x97,0x98,0x99].contains opcode

structure Machine where
  stack : List Valtype
  altstack : List Valtype
  vfExec : List Bool
  nOpCount : Nat
  pbegincodehash : CScript
  deriving DecidableEq, Repr

def vchOf (f : Bool) : Valtype := if f then [1] else []

/-- `CastToBool`: a number other than zero and negative zero. -/
def castToBool : Valtype → Bool
  | [] => false
  | [b] => b != 0 && b != 0x80
  | b :: vch => b != 0 || castToBool vch

section Stack

/-- `stacktop(-i)`. -/
def stacktop (stack : List Valtype) (i : Nat) : ScriptM Valtype :=
  match stack[i-1]? with
  | some vch => pure vch
  | none => throw .outOfRange

def popstack : List Valtype → ScriptM (List Valtype)
  | [] => throw .outOfRange
  | _ :: stack => pure stack

def popMany : Nat → List Valtype → ScriptM (List Valtype)
  | 0, stack => pure stack
  | n+1, stack => do
      let stack ← popstack stack
      popMany n stack

/-- `stack.erase(stack.end()-i)`. -/
def eraseAt (stack : List Valtype) (i : Nat) : ScriptM (List Valtype) :=
  if 1 ≤ i ∧ i ≤ stack.length then pure (stack.eraseIdx (i-1)) else throw .outOfRange

/-- `stack.insert(stack.end()-i, vch)`. -/
def insertAt (stack : List Valtype) (i : Nat) (vch : Valtype) : ScriptM (List Valtype) :=
  if i ≤ stack.length then pure (stack.insertIdx i vch) else throw .outOfRange

/-- `swap(stacktop(-i), stacktop(-j))`. -/
def swapAt (stack : List Valtype) (i j : Nat) : ScriptM (List Valtype) := do
  let vch1 ← stacktop stack i
  let vch2 ← stacktop stack j
  pure ((stack.set (i-1) vch2).set (j-1) vch1)

/-- The depth tests. -/
def need (stack : List Valtype) (n : Nat) : ScriptM Unit :=
  if stack.length < n then throw (.error .invalidStackOperation) else pure ()

def require (p : Bool) (serror : ScriptError) : ScriptM Unit :=
  if p then pure () else throw (.error serror)

/-- A verifying opcode takes its result off again, or fails. -/
def verifyResult (verify fSuccess : Bool) (serror : ScriptError) (stack : List Valtype) :
    ScriptM (List Valtype) :=
  if verify then
    if fSuccess then popstack stack else throw (.error serror)
  else pure stack

end Stack

namespace ScriptEnv
variable (env : ScriptEnv)

def hasFlag (flag : Nat) : Bool := env.flags &&& flag != 0

def fRequireMinimal : Bool := env.hasFlag SCRIPT_VERIFY_MINIMALDATA

/-- The constructor of `CScriptNum` from bytes. -/
def scriptNum (vch : Valtype) : ScriptM Int :=
  if CScriptNum.nMaxNumSize < vch.length then throw .scriptnumError
  else if env.fRequireMinimal && !CScriptNum.isMinimal vch then throw .scriptnumError
  else pure (CScriptNum.setVch vch)

def execControl (fExec : Bool) (m : Machine) : ControlOp → ScriptM Machine
  | .nop => pure m
  | .upgradableNop =>
      if env.hasFlag SCRIPT_VERIFY_DISCOURAGE_UPGRADABLE_NOPS then
        throw (.error .discourageUpgradableNops)
      else pure m
  | .ifOp negated =>
      if fExec then do
        require (!decide (m.stack.length < 1)) .unbalancedConditional
        let vch ← stacktop m.stack 1
        let stack ← popstack m.stack
        pure { m with stack := stack, vfExec := (castToBool vch != negated) :: m.vfExec }
      else pure { m with vfExec := false :: m.vfExec }
  | .elseOp =>
      match m.vfExec with
      | [] => throw (.error .unbalancedConditional)
      | f :: vfExec => pure { m with vfExec := (!f) :: vfExec }
  | .endif =>
      match m.vfExec with
      | [] => throw (.error .unbalancedConditional)
      | _ :: vfExec => pure { m with vfExec := vfExec }
  | .verify => do
      need m.stack 1
      let vch ← stacktop m.stack 1
      if castToBool vch then do
        let stack ← popstack m.stack
        pure { m with stack := stack }
      else throw (.error .verify)
  | .returnOp => throw (.error .opReturn)

/-- OP_PICK and OP_ROLL. -/
def execPick (roll : Bool) (stack : List Valtype) : ScriptM (List Valtype) := do
  need stack 2
  let vch ← stacktop stack 1
  let bn ← env.scriptNum vch
  let n := CScriptNum.getint bn
  let stack ← popstack stack
  require (!(decide (n < 0) || decide ((stack.length : Int) ≤ n))) .invalidStackOperation
  let vch ← stacktop stack (n.toNat+1)
  if roll then do
    let stack ← eraseAt stack (n.toNat+1)
    pure (vch :: stack)
  else pure (vch :: stack)

/-- OP_EQUAL and OP_EQUALVERIFY. -/
def execEqual (verify : Bool) (stack : List Valtype) : ScriptM (List Valtype) := do
  need stack 2
  let vch1 ← stacktop stack 2
  let vch2 ← stacktop stack 1
  let fEqual := vch1 == vch2
  let stack ← popstack stack
  let stack ← popstack stack
  verifyResult verify fEqual .equalVerify (vchOf fEqual :: stack)

def execStack (stack : List Valtype) : StackOp → ScriptM (List Valtype)
  | .drop2 => do
      need stack 2
      let stack ← popstack stack
      popstack stack
  | .dup2 => do
      need stack 2
      let vch1 ← stacktop stack 2
      let vch2 ← stacktop stack 1
      pure (vch2 :: vch1 :: stack)
  | .dup3 => do
      need stack 3
      let vch1 ← stacktop stack 3
      let vch2 ← stacktop stack 2
      let vch3 ← stacktop stack 1
      pure (vch3 :: vch2 :: vch1 :: stack)
  | .over2 => do
      need stack 4
      let vch1 ← stacktop stack 4
      let vch2 ← stacktop stack 3
      pure (vch2 :: vch1 :: stack)
  | .rot2 => do
      need stack 6
      let vch1 ← stacktop stack 6
      let vch2 ← stacktop stack 5
      let stack ← eraseAt stack 6
      let stack ← eraseAt stack 5
      pure (vch2 :: vch1 :: stack)
  | .swap2 => do
      need stack 4
      let stack ← swapAt stack 4 2
      swapAt stack 3 1
  | .ifDup => do
      need stack 1
      let vch ← stacktop stack 1
      pure (if castToBool vch then vch :: stack else stack)
  | .depth => pure (CScriptNum.serialize stack.length :: stack)
  | .drop => do
      need stack 1
      popstack stack
  | .dup => do
      need stack 1
      let vch ← stacktop stack 1
      pure (vch :: stack)
  | .nip => do
      need stack 2
      eraseAt stack 2
  | .over => do
      need stack 2
      let vch ← stacktop stack 2
      pure (vch :: stack)
  | .pick => env.execPick false stack
  | .roll => env.execPick true stack
  | .rot => do
      need stack 3
      let stack ← swapAt stack 3 2
      swapAt stack 2 1
  | .swap => do
      need stack 2
      swapAt stack 2 1
  | .tuck => do
      need stack 2
      let vch ← stacktop stack 1
      insertAt stack 2 vch
  | .size => do
      need stack 1
      let vch ← stacktop stack 1
      pure (CScriptNum.serialize vch.length :: stack)
  | .equal => execEqual false stack
  | .equalVerify => execEqual true stack

def execToAltStack (m : Machine) : ScriptM Machine := do
  need m.stack 1
  let vch ← stacktop m.stack 1
  let stack ← popstack m.stack
  pure { m with stack := stack, altstack := vch :: m.altstack }

def execFromAltStack (m : Machine) : ScriptM Machine := do
  require (!decide (m.altstack.length < 1)) .invalidAltstackOperation
  let vch ← stacktop m.altstack 1
  let altstack ← popstack m.altstack
  pure { m with stack := vch :: m.stack, altstack := altstack }

/-- A result of arithmetic on `int64_t`. -/
def checked (value : Int) : ScriptM Int :=
  if -2^63 ≤ value ∧ value < 2^63 then pure value else throw .assertion

def ofBool (f : Bool) : Int := if f then 1 else 0

def unaryResult (bn : Int) : UnaryOp → ScriptM Int
  | .add1 => checked (bn+1)
  | .sub1 => checked (bn-1)
  | .negate => checked (-bn)
  | .abs => if bn < 0 then checked (-bn) else pure bn
  | .not => pure (ofBool (bn == 0))
  | .notEqual0 => pure (ofBool (bn != 0))

def execUnary (stack : List Valtype) (op : UnaryOp) : ScriptM (List Valtype) := do
  need stack 1
  let vch ← stacktop stack 1
  let bn ← env.scriptNum vch
  let bn ← unaryResult bn op
  let stack ← popstack stack
  pure (CScriptNum.serialize bn :: stack)

def binaryResult (bn1 bn2 : Int) : BinaryOp → ScriptM Int
  | .add => checked (bn1+bn2)
  | .sub => checked (bn1-bn2)
  | .boolAnd => pure (ofBool (bn1 != 0 && bn2 != 0))
  | .boolOr => pure (ofBool (bn1 != 0 || bn2 != 0))
  | .numEqual => pure (ofBool (bn1 == bn2))
  | .numEqualVerify => pure (ofBool (bn1 == bn2))
  | .numNotEqual => pure (ofBool (bn1 != bn2))
  | .lessThan => pure (ofBool (decide (bn1 < bn2)))
  | .greaterThan => pure (ofBool (decide (bn2 < bn1)))
  | .lessThanOrEqual => pure (ofBool (decide (bn1 ≤ bn2)))
  | .greaterThanOrEqual => pure (ofBool (decide (bn2 ≤ bn1)))
  | .min => pure (if bn1 < bn2 then bn1 else bn2)
  | .max => pure (if bn2 < bn1 then bn1 else bn2)

def execBinary (stack : List Valtype) (op : BinaryOp) : ScriptM (List Valtype) := do
  need stack 2
  let vch1 ← stacktop stack 2
  let vch2 ← stacktop stack 1
  let bn1 ← env.scriptNum vch1
  let bn2 ← env.scriptNum vch2
  let bn ← binaryResult bn1 bn2 op
  let stack ← popstack stack
  let stack ← popstack stack
  let vch := CScriptNum.serialize bn
  verifyResult (op == .numEqualVerify) (castToBool vch) .numEqualVerify (vch :: stack)

def execWithin (stack : List Valtype) : ScriptM (List Valtype) := do
  need stack 3
  let vch1 ← stacktop stack 3
  let vch2 ← stacktop stack 2
  let vch3 ← stacktop stack 1
  let bn1 ← env.scriptNum vch1
  let bn2 ← env.scriptNum vch2
  let bn3 ← env.scriptNum vch3
  let stack ← popMany 3 stack
  pure (vchOf (decide (bn2 ≤ bn1) && decide (bn1 < bn3)) :: stack)

def digest (vch : Valtype) : HashOp → Valtype
  | .ripemd160 => env.hashes.ripemd160 vch
  | .sha1 => env.hashes.sha1 vch
  | .sha256 => env.hashes.sha256 vch
  | .hash160 => env.hashes.hash160 vch
  | .hash256 => env.hashes.hash256 vch

def execHash (stack : List Valtype) (op : HashOp) : ScriptM (List Valtype) := do
  need stack 1
  let vch ← stacktop stack 1
  let stack ← popstack stack
  pure (env.digest vch op :: stack)

/-- `IsValidSignatureEncoding`. -/
def isValidSignatureEncoding (sig : Valtype) : Bool :=
  let lenR := (sig.getD 3 0).toNat
  let lenS := (sig.getD (5+lenR) 0).toNat
  decide (9 ≤ sig.length) && decide (sig.length ≤ 73) && sig.getD 0 0 == 0x30 &&
    (sig.getD 1 0).toNat == sig.length-3 && decide (5+lenR < sig.length) &&
    lenR+lenS+7 == sig.length && sig.getD 2 0 == 0x02 && lenR != 0 &&
    sig.getD 4 0 &&& 0x80 == 0 &&
    !(decide (1 < lenR) && sig.getD 4 0 == 0 && sig.getD 5 0 &&& 0x80 == 0) &&
    sig.getD (lenR+4) 0 == 0x02 && lenS != 0 && sig.getD (lenR+6) 0 &&& 0x80 == 0 &&
    !(decide (1 < lenS) && sig.getD (lenR+6) 0 == 0 && sig.getD (lenR+7) 0 &&& 0x80 == 0)

/-- The last byte without SIGHASH_ANYONECANPAY is one of SIGHASH_ALL, SIGHASH_NONE and
SIGHASH_SINGLE. -/
def isDefinedHashtypeSignature (vchSig : Valtype) : Bool :=
  match vchSig.getLast? with
  | none => false
  | some last => decide (1 ≤ last &&& 0x7f) && decide (last &&& 0x7f ≤ 3)

def isCompressedOrUncompressedPubKey (vchPubKey : Valtype) : Bool :=
  if vchPubKey.length < 33 then false
  else if vchPubKey.getD 0 0 = 0x04 then vchPubKey.length == 65
  else if vchPubKey.getD 0 0 = 0x02 ∨ vchPubKey.getD 0 0 = 0x03 then vchPubKey.length == 33
  else false

def checkSignatureEncoding (vchSig : Valtype) : ScriptM Unit :=
  if vchSig.length = 0 then pure ()
  else if env.hasFlag (SCRIPT_VERIFY_DERSIG ||| SCRIPT_VERIFY_LOW_S ||| SCRIPT_VERIFY_STRICTENC) &&
      !isValidSignatureEncoding vchSig then throw (.error .sigDer)
  else if env.hasFlag SCRIPT_VERIFY_STRICTENC && !isDefinedHashtypeSignature vchSig then
    throw (.error .sigHashtype)
  else if env.hasFlag SCRIPT_VERIFY_LOW_S then throw .assertion
  else pure ()

def checkPubKeyEncoding (vchPubKey : Valtype) : ScriptM Unit :=
  require (!(env.hasFlag SCRIPT_VERIFY_STRICTENC && !isCompressedOrUncompressedPubKey vchPubKey))
    .pubkeyType

/-- A call of `checker.CheckSig`. -/
def callCheckSig (vchSig vchPubKey : Valtype) (scriptCode : CScript) : ScriptM Bool := fun n =>
  .ok (env.checkSig n vchSig vchPubKey scriptCode) (n+1)

/-- A signature and a key are tested for their encoding, and then against each other. -/
def checkPair (vchSig vchPubKey : Valtype) (scriptCode : CScript) : ScriptM Bool := do
  env.checkSignatureEncoding vchSig
  env.checkPubKeyEncoding vchPubKey
  env.callCheckSig vchSig vchPubKey scriptCode

/-- OP_CHECKSIG and OP_CHECKSIGVERIFY. -/
def execCheckSig (verify : Bool) (m : Machine) : ScriptM Machine := do
  need m.stack 2
  let vchSig ← stacktop m.stack 2
  let vchPubKey ← stacktop m.stack 1
  let scriptCode := findAndDelete m.pbegincodehash (pushData vchSig)
  let fSuccess ← env.checkPair vchSig vchPubKey scriptCode
  let stack ← popstack m.stack
  let stack ← popstack stack
  let stack ← verifyResult verify fSuccess .checkSigVerify (vchOf fSuccess :: stack)
  pure { m with stack := stack }

/-- The signatures are dropped from the script, from the one at `isig` on. -/
def dropSignatures (stack : List Valtype) : Nat → Nat → CScript → ScriptM CScript
  | 0, _, scriptCode => pure scriptCode
  | nSigsCount+1, isig, scriptCode => do
      let vchSig ← stacktop stack isig
      dropSignatures stack nSigsCount (isig+1) (findAndDelete scriptCode (pushData vchSig))

/-- The loop over the keys, which ends when every signature is found or too few keys are
left. -/
def checkKeys (stack : List Valtype) (scriptCode : CScript) :
    (nKeysCount nSigsCount isig ikey : Nat) → ScriptM Bool
  | _, 0, _, _ => pure true
  | 0, _+1, isig, ikey => do
      let vchSig ← stacktop stack isig
      let vchPubKey ← stacktop stack ikey
      let _ ← env.checkPair vchSig vchPubKey scriptCode
      pure false
  | nKeysCount+1, nSigsCount+1, isig, ikey => do
      let vchSig ← stacktop stack isig
      let vchPubKey ← stacktop stack ikey
      let fOk ← env.checkPair vchSig vchPubKey scriptCode
      if fOk then
        if nKeysCount < nSigsCount then pure false
        else checkKeys stack scriptCode nKeysCount nSigsCount (isig+1) (ikey+1)
      else if nKeysCount < nSigsCount+1 then pure false
      else checkKeys stack scriptCode nKeysCount (nSigsCount+1) isig (ikey+1)

/-- What OP_CHECKMULTISIG reads from the stack: the keys it counts and the signatures. -/
def multiSigCounts (m : Machine) : ScriptM (Nat × Nat) := do
  need m.stack 1
  let vch ← stacktop m.stack 1
  let bn ← env.scriptNum vch
  let nKeysCount := CScriptNum.getint bn
  require (!(decide (nKeysCount < 0) || decide (20 < nKeysCount))) .pubkeyCount
  require (!decide (201 < m.nOpCount+nKeysCount.toNat)) .opCount
  need m.stack (2+nKeysCount.toNat)
  let vch ← stacktop m.stack (2+nKeysCount.toNat)
  let bn ← env.scriptNum vch
  let nSigsCount := CScriptNum.getint bn
  require (!(decide (nSigsCount < 0) || decide (nKeysCount < nSigsCount))) .sigCount
  need m.stack (3+nKeysCount.toNat+nSigsCount.toNat)
  pure (nKeysCount.toNat,nSigsCount.toNat)

/-- OP_CHECKMULTISIG and OP_CHECKMULTISIGVERIFY. -/
def execCheckMultiSig (verify : Bool) (m : Machine) : ScriptM Machine := do
  let (nKeysCount,nSigsCount) ← env.multiSigCounts m
  let scriptCode ← dropSignatures m.stack nSigsCount (3+nKeysCount) m.pbegincodehash
  let fSuccess ← env.checkKeys m.stack scriptCode nKeysCount nSigsCount (3+nKeysCount) 2
  let stack ← popMany (2+nKeysCount+nSigsCount) m.stack
  need stack 1
  let vch ← stacktop stack 1
  require (!(env.hasFlag SCRIPT_VERIFY_NULLDUMMY && vch.length != 0)) .sigNullDummy
  let stack ← popstack stack
  let stack ← verifyResult verify fSuccess .checkMultiSigVerify (vchOf fSuccess :: stack)
  pure { m with stack := stack, nOpCount := m.nOpCount+nKeysCount }

/-- An operation on the main stack only. -/
def onStack (m : Machine) (x : ScriptM (List Valtype)) : ScriptM Machine := do
  let stack ← x
  pure { m with stack := stack }

/-- The switch. -/
def exec (fExec : Bool) (pc : CScript) (m : Machine) : Instruction → ScriptM Machine
  | .value n => pure { m with stack := CScriptNum.serialize n :: m.stack }
  | .control op => env.execControl fExec m op
  | .toAltStack => execToAltStack m
  | .fromAltStack => execFromAltStack m
  | .stack op => onStack m (env.execStack m.stack op)
  | .unary op => onStack m (env.execUnary m.stack op)
  | .binary op => onStack m (env.execBinary m.stack op)
  | .within => onStack m (env.execWithin m.stack)
  | .hash op => onStack m (env.execHash m.stack op)
  | .codeSeparator => pure { m with pbegincodehash := pc }
  | .checkSig verify => env.execCheckSig verify m
  | .checkMultiSig verify => env.execCheckMultiSig verify m
  | .unknown => throw (.error .badOpcode)

end ScriptEnv

/-- `CheckMinimalPush`. -/
def checkMinimalPush (data : Valtype) (opcode : UInt8) : Bool :=
  if data.length = 0 then opcode == 0
  else if data.length = 1 ∧ 1 ≤ data.getD 0 0 ∧ data.getD 0 0 ≤ 16 then
    opcode == OP_1+(data.getD 0 0-1)
  else if data.length = 1 ∧ data.getD 0 0 = 0x81 then opcode == 0x4f
  else if data.length ≤ 75 then opcode.toNat == data.length
  else if data.length ≤ 255 then opcode == OP_PUSHDATA1
  else if data.length ≤ 65535 then opcode == OP_PUSHDATA2
  else true

namespace ScriptEnv
variable (env : ScriptEnv)

def fExec (m : Machine) : Bool := m.vfExec.all id

/-- The pushes below OP_1NEGATE, and the switch; what is not executed is skipped, unless it
lies between OP_IF and OP_ENDIF. -/
def dispatch (op : Op) (pc : CScript) (m : Machine) : ScriptM Machine :=
  if fExec m && decide (op.opcode ≤ OP_PUSHDATA4) then do
    require (!(env.fRequireMinimal && !checkMinimalPush op.data op.opcode)) .minimalData
    pure { m with stack := op.data :: m.stack }
  else if fExec m || (decide (0x63 ≤ op.opcode) && decide (op.opcode ≤ 0x68)) then
    env.exec (fExec m) pc m (instruction op.opcode)
  else pure m

/-- One pass of the loop of `EvalScript`, `pc` being what follows the instruction. -/
def step (op : Op) (pc : CScript) (m : Machine) : ScriptM Machine := do
  require (!decide (MAX_SCRIPT_ELEMENT_SIZE < op.data.length)) .pushSize
  let nOpCount := if OP_16 < op.opcode then m.nOpCount+1 else m.nOpCount
  require (!(decide (OP_16 < op.opcode) && decide (201 < nOpCount))) .opCount
  require (!isDisabled op.opcode) .disabledOpcode
  let m ← env.dispatch op pc { m with nOpCount := nOpCount }
  require (!decide (1000 < m.stack.length+m.altstack.length)) .stackSize
  pure m

/-- The loop of `EvalScript`. -/
def evalFrom (pc : CScript) (m : Machine) : ScriptM Machine :=
  if pc = [] then pure m
  else
    match _h : getOp pc with
    | (none,_) => throw (.error .badOpcode)
    | (some op,rest) => do
        let m ← env.step op rest m
        evalFrom rest m
  termination_by pc.length
  decreasing_by exact getOp_length _h

@[simp] theorem evalFrom_nil (m : Machine) : env.evalFrom [] m = pure m := by
  unfold evalFrom
  rw [if_pos rfl]

theorem evalFrom_none {pc rest : CScript} (hpc : pc ≠ []) (h : getOp pc = (none,rest)) (m : Machine) :
    env.evalFrom pc m = throw (.error .badOpcode) := by
  unfold evalFrom
  rw [if_neg hpc]
  split
  · rfl
  · rename_i heq
    exact (getOp_not_none h heq).elim

theorem evalFrom_some {pc rest : CScript} {op : Op} (h : getOp pc = (some op,rest)) (m : Machine) :
    env.evalFrom pc m = env.step op rest m >>= env.evalFrom rest := by
  conv_lhs => unfold evalFrom
  rw [if_neg (getOp_ne_nil h)]
  split
  · rename_i heq
    exact (getOp_not_none heq h).elim
  · rename_i heq
    obtain ⟨rfl,rfl⟩ := getOp_unique h heq
    rfl

def evalScript (stack : List Valtype) (script : CScript) : ScriptM (List Valtype) := do
  require (!decide (10000 < script.length)) .scriptSize
  let m ← env.evalFrom script ⟨stack,[],[],0,script⟩
  require (m.vfExec == []) .unbalancedConditional
  pure m.stack

end ScriptEnv

/-- `IsPushOnly`, from an instruction on. -/
def isPushOnly (pc : CScript) : Bool :=
  if pc = [] then true
  else
    match _h : getOp pc with
    | (none,_) => false
    | (some op,rest) => if OP_16 < op.opcode then false else isPushOnly rest
  termination_by pc.length
  decreasing_by exact getOp_length _h

namespace ScriptEnv
variable (env : ScriptEnv)

/-- The top of the stack is there and true. -/
def requireTrue (stack : List Valtype) : ScriptM Unit :=
  match stack with
  | [] => throw (.error .evalFalse)
  | vch :: _ => require (castToBool vch) .evalFalse

/-- The evaluation of the script that a pay-to-script-hash output commits to. -/
def verifyRedeemScript (scriptSig : CScript) (stackCopy : List Valtype) : ScriptM Unit := do
  require (isPushOnly scriptSig) .sigPushOnly
  match stackCopy with
  | [] => throw .assertion
  | pubKeySerialized :: stackCopy => do
      let stack ← env.evalScript stackCopy pubKeySerialized
      requireTrue stack

/-- `VerifyScript`; a failure is a rejection. -/
def verifyScript (scriptSig scriptPubKey : CScript) : ScriptM Unit := do
  require (!(env.hasFlag SCRIPT_VERIFY_SIGPUSHONLY && !isPushOnly scriptSig)) .sigPushOnly
  let stackCopy ← env.evalScript [] scriptSig
  let stack ← env.evalScript stackCopy scriptPubKey
  requireTrue stack
  if env.hasFlag SCRIPT_VERIFY_P2SH && CScript.isPayToScriptHash scriptPubKey then
    env.verifyRedeemScript scriptSig stackCopy
  else pure ()

end ScriptEnv

/-- The verdict of `VerifyScript`. -/
def ScriptM.accepts (x : ScriptM Unit) : Bool :=
  match x 0 with
  | .ok _ _ => true
  | .error _ _ => false

end Anoncoin
