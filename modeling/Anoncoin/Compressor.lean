import Mathlib.Tactic.IntervalCases
import Anoncoin.ConnectBlock
import Anoncoin.Serialize

/-!
Variable-length integers (serialize.h), and the compact forms of amounts, scripts and
outputs (compressor.h, compressor.cpp).
-/

set_option autoImplicit false

namespace Anoncoin
open Lib

/-- The loop of `WriteVarInt`: the digits from the lowest up, each but the first with the
high bit. -/
def varIntDigits (n : Nat) (mark : Nat) : List UInt8 :=
  if n ≤ 0x7f then [UInt8.ofNat (n%128+mark)]
  else UInt8.ofNat (n%128+mark) :: varIntDigits (n/128-1) 128
  termination_by n
  decreasing_by omega

def writeVarInt (n : Nat) : List UInt8 := (varIntDigits n 0).reverse

def getSizeOfVarInt (n : Nat) : Nat := if n ≤ 0x7f then 1 else getSizeOfVarInt (n/128-1)+1
  termination_by n
  decreasing_by omega

/-- The loop of `ReadVarInt` for an integer type of `w` bits. -/
def varIntFrom (w n : Nat) : List UInt8 → Option (Nat × List UInt8)
  | [] => none
  | chData :: rest =>
      let n := (n*128+chData.toNat%128)%2^w
      if 128 ≤ chData.toNat then varIntFrom w ((n+1)%2^w) rest else some (n,rest)

def readVarInt (w : Nat) : Reader ReadFailure Nat := fun s =>
  match varIntFrom w 0 s.input with
  | none => .error .endOfData s
  | some (n,rest) => .ok n { s with input := rest }

/-- The bytes of a number above another one: all with the high bit. -/
def varIntHigh (n : Nat) : List UInt8 := (varIntDigits n 128).reverse

theorem varIntFrom_high {w n : Nat} (h : n+1 < 2^w) (rest : List UInt8) :
    varIntFrom w 0 (varIntHigh n ++ rest) = varIntFrom w (n+1) rest := by
  induction n using Nat.strong_induction_on generalizing rest with
  | _ n ih =>
    have hbyte : (UInt8.ofNat (n%128+128)).toNat = n%128+128 := by
      rw [UInt8.toNat_ofNat']
      omega
    unfold varIntHigh varIntDigits
    split
    · rename_i hle
      rw [List.reverse_singleton,List.singleton_append,varIntFrom,hbyte,if_pos (by omega),
        show 0*128+(n%128+128)%128 = n by omega,Nat.mod_eq_of_lt (show n < 2^w by omega),
        Nat.mod_eq_of_lt h]
    · rename_i hle
      have hprev := ih (n/128-1) (by omega) (by omega) (UInt8.ofNat (n%128+128) :: rest)
      unfold varIntHigh at hprev
      rw [List.reverse_cons,List.append_assoc,List.singleton_append,hprev,varIntFrom,hbyte,
        if_pos (by omega),show (n/128-1+1)*128+(n%128+128)%128 = n by omega,
        Nat.mod_eq_of_lt (show n < 2^w by omega),Nat.mod_eq_of_lt h]

theorem reads_readVarInt {w n : Nat} (h : n < 2^w) : Reads (readVarInt w) (writeVarInt n) n := by
  intro s rest hs
  have hread : varIntFrom w 0 (writeVarInt n ++ rest) = some (n,rest) := by
    have hbyte : (UInt8.ofNat (n%128+0)).toNat = n%128 := by
      rw [UInt8.toNat_ofNat']
      omega
    unfold writeVarInt varIntDigits
    split
    · rw [List.reverse_singleton,List.singleton_append,varIntFrom,hbyte,if_neg (by omega),
        show 0*128+n%128%128 = n by omega,Nat.mod_eq_of_lt h]
    · have hprev := varIntFrom_high (w := w) (n := n/128-1) (by omega)
        (UInt8.ofNat (n%128+0) :: rest)
      unfold varIntHigh at hprev
      rw [List.reverse_cons,List.append_assoc,List.singleton_append,hprev,varIntFrom,hbyte,
        if_neg (by omega),show (n/128-1+1)*128+n%128%128 = n by omega,Nat.mod_eq_of_lt h]
  refine ⟨{ s with input := rest },?_,rfl⟩
  unfold readVarInt
  rw [hs,hread]

theorem length_varIntDigits (n mark : Nat) : (varIntDigits n mark).length = getSizeOfVarInt n := by
  induction n using Nat.strong_induction_on generalizing mark with
  | _ n ih =>
    unfold varIntDigits getSizeOfVarInt
    split
    · rfl
    · rw [List.length_cons,ih (n/128-1) (by omega)]

theorem length_writeVarInt (n : Nat) : (writeVarInt n).length = getSizeOfVarInt n := by
  unfold writeVarInt
  rw [List.length_reverse,length_varIntDigits]

theorem getSizeOfVarInt_le {n k : Nat} (h : n < 128^(k+1)) : getSizeOfVarInt n ≤ k+1 := by
  induction k generalizing n with
  | zero =>
    unfold getSizeOfVarInt
    rw [if_pos (by omega)]
  | succ k ih =>
    unfold getSizeOfVarInt
    split
    · omega
    · have hlt : n/128-1 < 128^(k+1) := by
        rw [pow_succ] at h
        omega
      have := ih hlt
      omega

/-- The loop that divides by ten, up to nine times. -/
def stripZeros (n e : Nat) : Nat × Nat :=
  if n%10 = 0 ∧ e < 9 then stripZeros (n/10) (e+1) else (n,e)
  termination_by 9-e

/-- `CompressAmount`, in `uint64_t`. -/
def compressAmount (n : Nat) : Nat :=
  if n = 0 then 0
  else
    let (n,e) := stripZeros n 0
    if e < 9 then (1+(n/10*9+n%10-1)*10+e)%2^64 else (1+(n-1)*10+9)%2^64

def decompressAmount (x : Nat) : Nat :=
  if x = 0 then 0
  else
    let x := x-1
    let e := x%10
    let x := x/10
    let n := if e < 9 then (x/9*10+(x%9+1))%2^64 else (x+1)%2^64
    (List.range e).foldl (fun n _ => n*10%2^64) n

section Amounts

theorem stripZeros_spec {n e n' e' : Nat} (hn : n ≠ 0) (he : e ≤ 9)
    (h : stripZeros n e = (n',e')) :
    n = n'*10^(e'-e) ∧ e ≤ e' ∧ e' ≤ 9 ∧ n' ≠ 0 ∧ (e' < 9 → n'%10 ≠ 0) := by
  induction hk : 9-e generalizing n e with
  | zero =>
    unfold stripZeros at h
    rw [if_neg (by omega)] at h
    obtain ⟨rfl,rfl⟩ := Prod.mk.inj h
    refine ⟨by simp,Nat.le_refl _,he,hn,fun hlt => ?_⟩
    omega
  | succ k ih =>
    unfold stripZeros at h
    split at h
    · rename_i hz
      obtain ⟨heq,hle,hle',hpos,hlast⟩ := ih (by omega) (by omega) h (by omega)
      refine ⟨?_,by omega,hle',hpos,hlast⟩
      have hn10 : n = n/10*10 := by omega
      calc n = n/10*10 := hn10
        _ = n'*10^(e'-(e+1))*10 := by rw [← heq]
        _ = n'*10^(e'-e) := by
          rw [Nat.mul_assoc,← Nat.pow_succ,show (e'-(e+1)).succ = e'-e by omega]
    · rename_i hz
      obtain ⟨rfl,rfl⟩ := Prod.mk.inj h
      exact ⟨by simp,Nat.le_refl _,he,hn,by omega⟩

/-- A number is what is left when its zeros are stripped, and up to nine zeros. -/
theorem stripZeros_zero {n : Nat} (hn : n ≠ 0) : ∃ n' e, stripZeros n 0 = (n',e) ∧
    n = n'*10^e ∧ e ≤ 9 ∧ n' ≠ 0 ∧ (e < 9 → n'%10 ≠ 0) := by
  obtain ⟨⟨n',e⟩,hstrip⟩ : ∃ r, stripZeros n 0 = r := ⟨_,rfl⟩
  obtain ⟨heq,-,he,hpos,hlast⟩ := stripZeros_spec hn (by omega) hstrip
  exact ⟨n',e,hstrip,heq,he,hpos,hlast⟩

theorem foldl_mul_ten {n e : Nat} (h : n*10^e < 2^64) :
    (List.range e).foldl (fun n _ => n*10%2^64) n = n*10^e := by
  induction e with
  | zero => simp
  | succ e ih =>
    have hlt : n*10^e*10 < 2^64 := by
      rw [Nat.mul_assoc,← Nat.pow_succ]
      exact h
    rw [List.range_succ,List.foldl_append,ih (by omega)]
    simp only [List.foldl_cons,List.foldl_nil]
    rw [Nat.mod_eq_of_lt hlt,Nat.mul_assoc,Nat.pow_succ]

theorem decompressAmount_succ {x e : Nat} (he : e < 10) :
    decompressAmount (1+x*10+e) = (List.range e).foldl (fun n _ => n*10%2^64)
      (if e < 9 then (x/9*10+(x%9+1))%2^64 else (x+1)%2^64) := by
  unfold decompressAmount
  rw [if_neg (by omega),show 1+x*10+e-1 = x*10+e by omega]
  simp only [show (x*10+e)%10 = e by omega,show (x*10+e)/10 = x by omega]

theorem compressAmount_lt (n : Nat) : compressAmount n < 2^64 := by
  unfold compressAmount
  split
  · exact Nat.two_pow_pos 64
  · simp only
    split
    · exact Nat.mod_lt _ (Nat.two_pow_pos 64)
    · exact Nat.mod_lt _ (Nat.two_pow_pos 64)

/-- Amounts whose ninefold fits are found again. -/
theorem decompressAmount_compressAmount {n : Nat} (h : n*10+100 < 2^64) :
    decompressAmount (compressAmount n) = n := by
  unfold compressAmount
  split
  · rename_i hz
    rw [hz]
    rfl
  · rename_i hz
    obtain ⟨n',e,hstrip,heq,he,hpos,hlast⟩ := stripZeros_zero hz
    have hle : n' ≤ n := by
      rw [heq]
      exact Nat.le_mul_of_pos_right n' (Nat.pow_pos (by decide))
    have hfold : (List.range e).foldl (fun n _ => n*10%2^64) n' = n := by
      rw [foldl_mul_ten (by omega)]
      exact heq.symm
    rw [hstrip]
    simp only
    split
    · rename_i hlt
      have hd := hlast hlt
      rw [Nat.mod_eq_of_lt (by omega),decompressAmount_succ (by omega),if_pos hlt,
        show (n'/10*9+n'%10-1)/9*10+((n'/10*9+n'%10-1)%9+1) = n' by omega,
        Nat.mod_eq_of_lt (by omega)]
      exact hfold
    · rename_i hlt
      obtain rfl : e = 9 := by omega
      rw [Nat.mod_eq_of_lt (by omega),decompressAmount_succ (by omega),if_neg hlt,
        show n'-1+1 = n' by omega,Nat.mod_eq_of_lt (by omega)]
      exact hfold

end Amounts

def OP_DUP : UInt8 := 0x76

def OP_EQUALVERIFY : UInt8 := 0x88

def OP_CHECKSIG : UInt8 := 0xac

/-- The parts of `CPubKey` that calculate with points of the curve. -/
structure PubKeys where
  isFullyValid : List UInt8 → Bool
  decompress : List UInt8 → Option (List UInt8)

/-- Decompression finds a fully valid uncompressed key again from its first coordinate and
the parity of the second. -/
def PubKeys.Inverse (keys : PubKeys) : Prop :=
  ∀ key : List UInt8, key.length = 65 → key[0]? = some 4 → keys.isFullyValid key = true →
    keys.decompress ((2 ||| (key.getD 64 0 &&& 1)) :: (key.drop 1).take 32) = some key

namespace CScriptCompressor

def nSpecialScripts : Nat := 6

def isToKeyID (script : CScript) : Option (List UInt8) :=
  if script.length = 25 ∧ script[0]? = some OP_DUP ∧ script[1]? = some OP_HASH160 ∧
      script[2]? = some 20 ∧ script[23]? = some OP_EQUALVERIFY ∧ script[24]? = some OP_CHECKSIG then
    some ((script.drop 3).take 20)
  else none

def isToScriptID (script : CScript) : Option (List UInt8) :=
  if script.length = 23 ∧ script[0]? = some OP_HASH160 ∧ script[1]? = some 20 ∧
      script[22]? = some OP_EQUAL then
    some ((script.drop 2).take 20)
  else none

/-- The bytes of the key, which `CPubKey::Set` takes as they have the length that belongs
to their first byte. -/
def isToPubKey (keys : PubKeys) (script : CScript) : Option (List UInt8) :=
  if script.length = 35 ∧ script[0]? = some 33 ∧ script[34]? = some OP_CHECKSIG ∧
      (script[1]? = some 2 ∨ script[1]? = some 3) then
    some ((script.drop 1).take 33)
  else if script.length = 67 ∧ script[0]? = some 65 ∧ script[66]? = some OP_CHECKSIG ∧
      script[1]? = some 4 then
    if keys.isFullyValid ((script.drop 1).take 65) then some ((script.drop 1).take 65) else none
  else none

def compress (keys : PubKeys) (script : CScript) : Option (List UInt8) :=
  match isToKeyID script with
  | some keyID => some (0 :: keyID)
  | none =>
      match isToScriptID script with
      | some scriptID => some (1 :: scriptID)
      | none =>
          match isToPubKey keys script with
          | some pubkey =>
              if pubkey[0]? = some 2 ∨ pubkey[0]? = some 3 then
                some (pubkey.getD 0 0 :: (pubkey.drop 1).take 32)
              else if pubkey[0]? = some 4 then
                some ((4 ||| (pubkey.getD 64 0 &&& 1)) :: (pubkey.drop 1).take 32)
              else none
          | none => none

def getSpecialSize (nSize : Nat) : Nat :=
  if nSize = 0 ∨ nSize = 1 then 20
  else if nSize = 2 ∨ nSize = 3 ∨ nSize = 4 ∨ nSize = 5 then 32
  else 0

def decompress (keys : PubKeys) (nSize : Nat) (bytes : List UInt8) : Option CScript :=
  match nSize with
  | 0 => some ([OP_DUP,OP_HASH160,20] ++ (bytes.take 20 ++ [OP_EQUALVERIFY,OP_CHECKSIG]))
  | 1 => some ([OP_HASH160,20] ++ (bytes.take 20 ++ [OP_EQUAL]))
  | 2 | 3 => some ([33,UInt8.ofNat nSize] ++ (bytes.take 32 ++ [OP_CHECKSIG]))
  | 4 | 5 =>
      (keys.decompress (UInt8.ofNat (nSize-2) :: bytes.take 32)).map fun pubkey =>
        65 :: (pubkey.take 65 ++ [OP_CHECKSIG])
  | _ => none

def serialize (keys : PubKeys) (script : CScript) : List UInt8 :=
  match compress keys script with
  | some compr => compr
  | none => writeVarInt ((script.length+nSpecialScripts)%2^32) ++ script

/-- A script that cannot be decompressed leaves the one that was there. -/
def unserialize (keys : PubKeys) (script : CScript) : Reader ReadFailure CScript := do
  let nSize ← readVarInt 32
  if nSize < nSpecialScripts then do
    let vch ← take .endOfData (getSpecialSize nSize)
    pure ((decompress keys nSize vch).getD script)
  else take .endOfData (nSize-nSpecialScripts)

end CScriptCompressor

namespace CTxOutCompressor

def serialize (keys : PubKeys) (txout : CTxOut) : List UInt8 :=
  writeVarInt (compressAmount (txout.nValue%2^64).toNat) ++
    CScriptCompressor.serialize keys txout.scriptPubKey

def unserialize (keys : PubKeys) (txout : CTxOut) : Reader ReadFailure CTxOut := do
  let nVal ← readVarInt 64
  let script ← CScriptCompressor.unserialize keys txout.scriptPubKey
  pure ⟨(decompressAmount nVal : Int).bmod (2^64),script⟩

/-- `CSizeComputer` counts the bytes that are written. -/
def getSerializeSize (keys : PubKeys) (txout : CTxOut) : Nat := (serialize keys txout).length

end CTxOutCompressor

section Scripts
variable {keys : PubKeys} {script : CScript}

theorem drop_of_getElem? {l : List UInt8} {i : Nat} {b : UInt8} (h : l[i]? = some b) :
    l.drop i = b :: l.drop (i+1) := by
  rw [List.drop_eq_getElem?_toList_append,h]
  rfl

theorem split_at {l : List UInt8} (a b : Nat) :
    l = l.take a ++ ((l.drop a).take b ++ l.drop (a+b)) := by
  rw [← List.drop_drop,List.take_append_drop,List.take_append_drop]

namespace CScriptCompressor

theorem isToKeyID_eq_some {hash : List UInt8} (h : isToKeyID script = some hash) :
    hash.length = 20 ∧
      script = [OP_DUP,OP_HASH160,20] ++ (hash ++ [OP_EQUALVERIFY,OP_CHECKSIG]) := by
  unfold isToKeyID at h
  split at h
  · rename_i ht
    obtain ⟨hlen,h₀,h₁,h₂,h₂₃,h₂₄⟩ := ht
    obtain rfl := Option.some.inj h
    have hend : script.drop 23 = [OP_EQUALVERIFY,OP_CHECKSIG] := by
      rw [drop_of_getElem? h₂₃,drop_of_getElem? h₂₄,List.drop_of_length_le (by omega)]
    have hstart : script.take 3 = [OP_DUP,OP_HASH160,20] := by
      simp [List.take_add_one,h₀,h₁,h₂]
    refine ⟨by simp [hlen],?_⟩
    have hsplit := split_at (l := script) 3 20
    rw [hstart,hend] at hsplit
    exact hsplit
  · contradiction

theorem isToScriptID_eq_some {hash : List UInt8} (h : isToScriptID script = some hash) :
    hash.length = 20 ∧ script = [OP_HASH160,20] ++ (hash ++ [OP_EQUAL]) := by
  unfold isToScriptID at h
  split at h
  · rename_i ht
    obtain ⟨hlen,h₀,h₁,h₂₂⟩ := ht
    obtain rfl := Option.some.inj h
    have hend : script.drop 22 = [OP_EQUAL] := by
      rw [drop_of_getElem? h₂₂,List.drop_of_length_le (by omega)]
    have hstart : script.take 2 = [OP_HASH160,20] := by
      simp [List.take_add_one,h₀,h₁]
    refine ⟨by simp [hlen],?_⟩
    have hsplit := split_at (l := script) 2 20
    rw [hstart,hend] at hsplit
    exact hsplit
  · contradiction

/-- A key script holds a compressed key, or a fully valid uncompressed one. -/
theorem isToPubKey_eq_some {pubkey : List UInt8} (h : isToPubKey keys script = some pubkey) :
    (pubkey.length = 33 ∧ (pubkey[0]? = some 2 ∨ pubkey[0]? = some 3) ∧
      script = 33 :: (pubkey ++ [OP_CHECKSIG])) ∨
    (pubkey.length = 65 ∧ pubkey[0]? = some 4 ∧ keys.isFullyValid pubkey = true ∧
      script = 65 :: (pubkey ++ [OP_CHECKSIG])) := by
  have hbody : ∀ (n : Nat) (b : UInt8), script.length = n+2 → script[0]? = some b →
      script[n+1]? = some OP_CHECKSIG → script = b :: ((script.drop 1).take n ++ [OP_CHECKSIG]) := by
    intro n b hlen h₀ hlast
    have hend : script.drop (1+n) = [OP_CHECKSIG] := by
      rw [Nat.add_comm,drop_of_getElem? hlast,List.drop_of_length_le (by omega)]
    have hstart : script.take 1 = [b] := by simp [List.take_add_one,h₀]
    have hsplit := split_at (l := script) 1 n
    rw [hstart,hend] at hsplit
    exact hsplit
  have hfirst : ∀ n, 0 < n → ((script.drop 1).take n)[0]? = script[1]? := by
    intro n hn
    rw [List.getElem?_take_of_lt hn,List.getElem?_drop]
  unfold isToPubKey at h
  split at h
  · rename_i ht
    obtain ⟨hlen,h₀,hlast,hkey⟩ := ht
    obtain rfl := Option.some.inj h
    rw [hfirst 33 (by decide)]
    exact .inl ⟨by simp [hlen],hkey,hbody 33 33 hlen h₀ hlast⟩
  · split at h
    · rename_i ht
      obtain ⟨hlen,h₀,hlast,hkey⟩ := ht
      split at h
      · rename_i hvalid
        obtain rfl := Option.some.inj h
        rw [hfirst 65 (by decide)]
        exact .inr ⟨by simp [hlen],hkey,hvalid,hbody 65 65 hlen h₀ hlast⟩
      · contradiction
    · contradiction

theorem and_one_cases (b : UInt8) : b &&& 1 = 0 ∨ b &&& 1 = 1 := by
  have hnat : (b &&& 1).toNat = b.toNat%2 := by
    rw [UInt8.toNat_and]
    exact Nat.and_one_is_mod b.toNat
  rcases Nat.mod_two_eq_zero_or_one b.toNat with h | h
  · exact .inl (UInt8.toNat_inj.mp (hnat.trans h))
  · exact .inr (UInt8.toNat_inj.mp (hnat.trans h))

/-- The short form of a special script starts with its number, below six, and what follows
is decompressed to the script. -/
theorem compress_eq_some (hkeys : keys.Inverse) {out : List UInt8}
    (h : compress keys script = some out) :
    ∃ n body, out = UInt8.ofNat n :: body ∧ n < nSpecialScripts ∧
      body.length = getSpecialSize n ∧ decompress keys n body = some script := by
  unfold compress at h
  split at h
  · rename_i hash hkey
    obtain ⟨hlen,hscript⟩ := isToKeyID_eq_some hkey
    obtain rfl := Option.some.inj h
    refine ⟨0,hash,rfl,by decide,hlen,?_⟩
    rw [decompress,List.take_of_length_le (by omega),hscript]
  split at h
  · rename_i hash hkey
    obtain ⟨hlen,hscript⟩ := isToScriptID_eq_some hkey
    obtain rfl := Option.some.inj h
    refine ⟨1,hash,rfl,by decide,hlen,?_⟩
    rw [decompress,List.take_of_length_le (by omega),hscript]
  split at h
  · rename_i pubkey hkey
    have hbody : ∀ n, n+1 ≤ pubkey.length → ((pubkey.drop 1).take n).length = n := by
      intro n hn
      rw [List.length_take,List.length_drop]
      omega
    rcases isToPubKey_eq_some hkey with ⟨hlen,hfirst,hscript⟩ | ⟨hlen,hfirst,hvalid,hscript⟩
    · rw [if_pos hfirst] at h
      obtain rfl := Option.some.inj h
      have hsplit : ∀ b, pubkey[0]? = some b → pubkey = b :: (pubkey.drop 1).take 32 := by
        intro b hb
        have h := drop_of_getElem? hb
        rw [List.drop_zero] at h
        rwa [List.take_of_length_le (by rw [List.length_drop]; omega)]
      rcases hfirst with h₂ | h₃
      · refine ⟨2,(pubkey.drop 1).take 32,by simp [h₂],by decide,hbody 32 (by omega),?_⟩
        rw [decompress,List.take_of_length_le (by rw [hbody 32 (by omega)]),hscript]
        conv_rhs => rw [hsplit 2 h₂]
        rfl
      · refine ⟨3,(pubkey.drop 1).take 32,by simp [h₃],by decide,hbody 32 (by omega),?_⟩
        rw [decompress,List.take_of_length_le (by rw [hbody 32 (by omega)]),hscript]
        conv_rhs => rw [hsplit 3 h₃]
        rfl
    · have hne : ¬(pubkey[0]? = some 2 ∨ pubkey[0]? = some 3) := by
        rw [hfirst]
        decide
      rw [if_neg hne,if_pos hfirst] at h
      obtain rfl := Option.some.inj h
      have hinv := hkeys pubkey hlen hfirst hvalid
      rcases and_one_cases (pubkey.getD 64 0) with hbit | hbit
      · rw [hbit] at hinv ⊢
        refine ⟨4,(pubkey.drop 1).take 32,rfl,by decide,hbody 32 (by omega),?_⟩
        rw [decompress,List.take_of_length_le (by rw [hbody 32 (by omega)]),
          show UInt8.ofNat (4-2) = 2 ||| 0 from rfl,hinv,Option.map_some,
          List.take_of_length_le (by omega),hscript]
      · rw [hbit] at hinv ⊢
        refine ⟨5,(pubkey.drop 1).take 32,rfl,by decide,hbody 32 (by omega),?_⟩
        rw [decompress,List.take_of_length_le (by rw [hbody 32 (by omega)]),
          show UInt8.ofNat (5-2) = 2 ||| 1 from rfl,hinv,Option.map_some,
          List.take_of_length_le (by omega),hscript]
  · contradiction

theorem writeVarInt_small {n : Nat} (h : n ≤ 0x7f) : writeVarInt n = [UInt8.ofNat n] := by
  unfold writeVarInt varIntDigits
  rw [if_pos h,List.reverse_singleton,Nat.add_zero,Nat.mod_eq_of_lt (by omega)]

theorem reads_unserialize (hkeys : keys.Inverse) (h : script.length+nSpecialScripts < 2^32)
    (old : CScript) : Reads (unserialize keys old) (serialize keys script) script := by
  unfold serialize
  cases hc : compress keys script with
  | some out =>
    obtain ⟨n,body,rfl,hn,hlen,hdec⟩ := compress_eq_some hkeys hc
    have hsmall : n < 6 := hn
    have hread : Reads (readVarInt 32) [UInt8.ofNat n] n := by
      rw [← writeVarInt_small (by omega)]
      exact reads_readVarInt (by omega)
    have htake : Reads (take ReadFailure.endOfData (getSpecialSize n)) body body := by
      rw [← hlen]
      exact Reads.take body
    have hpure : Reads (pure ((decompress keys n body).getD old) : Reader ReadFailure CScript) []
        script := by
      rw [hdec]
      exact Reads.pure script
    refine Reads.bind hread ?_
    rw [if_pos hn]
    exact htake.map hpure
  | none =>
    simp only
    rw [Nat.mod_eq_of_lt h]
    refine (reads_readVarInt h).bind ?_
    rw [if_neg (by omega),Nat.add_sub_cancel]
    exact Reads.take script

theorem length_serialize_le (hkeys : keys.Inverse) (script : CScript) :
    (serialize keys script).length ≤ script.length+33 := by
  unfold serialize
  cases hc : compress keys script with
  | some out =>
    obtain ⟨n,body,rfl,-,hlen,-⟩ := compress_eq_some hkeys hc
    simp only [List.length_cons,hlen]
    unfold getSpecialSize
    split_ifs <;> omega
  | none =>
    have hvar : getSizeOfVarInt ((script.length+nSpecialScripts)%2^32) ≤ 4+1 :=
      getSizeOfVarInt_le (lt_trans (Nat.mod_lt _ (by decide)) (by decide))
    simp only [List.length_append,length_writeVarInt]
    omega

end CScriptCompressor

namespace CTxOutCompressor

/-- Whatever the output was before, it is now the one that was written. -/
theorem reads_unserialize {txout : CTxOut} (hkeys : keys.Inverse)
    (hvalue : moneyRange txout.nValue = true)
    (h : txout.scriptPubKey.length+CScriptCompressor.nSpecialScripts < 2^32) (old : CTxOut) :
    Reads (unserialize keys old) (serialize keys txout) txout := by
  obtain ⟨hlo,hhi⟩ := (moneyRange_iff _).mp hvalue
  have hmax : txout.nValue ≤ 310515600000000 := hhi
  have hmod : txout.nValue%2^64 = txout.nValue := Int.emod_eq_of_lt hlo (by omega)
  have hback : (decompressAmount (compressAmount (txout.nValue%2^64).toNat) : Int).bmod (2^64) =
      txout.nValue := by
    rw [hmod,decompressAmount_compressAmount (by omega),Int.toNat_of_nonneg hlo]
    apply Int.bmod_eq_of_le_mul_two
    · omega
    · omega
  have hpure : Reads (pure ⟨(decompressAmount (compressAmount (txout.nValue%2^64).toNat) :
      Int).bmod (2^64),txout.scriptPubKey⟩ : Reader ReadFailure CTxOut) [] txout := by
    rw [hback]
    exact Reads.pure txout
  exact (reads_readVarInt (compressAmount_lt _)).bind
    ((CScriptCompressor.reads_unserialize hkeys h _).map hpure)

theorem getSerializeSize_le (hkeys : keys.Inverse) (txout : CTxOut) :
    getSerializeSize keys txout ≤ txout.scriptPubKey.length+43 := by
  have hvar : getSizeOfVarInt (compressAmount (txout.nValue%2^64).toNat) ≤ 9+1 :=
    getSizeOfVarInt_le (lt_trans (compressAmount_lt _) (by decide))
  have hscript := CScriptCompressor.length_serialize_le hkeys txout.scriptPubKey
  unfold getSerializeSize serialize
  rw [List.length_append,length_writeVarInt]
  omega

end CTxOutCompressor

end Scripts

end Anoncoin
