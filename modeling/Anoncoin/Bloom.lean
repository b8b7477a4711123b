import Anoncoin.Lib.BitArray
import Anoncoin.Standard

/-!
The filters of peers (bloom.h, bloom.cpp): loading, insertion, and the test of transactions,
which adds what it matches.
-/

set_option autoImplicit false

namespace Anoncoin
open Lib

def rotl32 (x : Uint32) (r : Nat) : Uint32 := (x <<< r) ||| (x >>> (32-r))

/-- `k1` before it is mixed into `h1`. -/
def mixBlock (k1 : Uint32) : Uint32 := rotl32 (k1*0xcc9e2d51) 15*0x1b873593

/-- The blocks of four bytes and the tail of `MurmurHash3`. -/
def murmurBody (h1 : Uint32) : List UInt8 → Uint32
  | a :: b :: c :: d :: rest =>
      murmurBody (rotl32 (h1 ^^^ mixBlock (BitVec.ofNat 32 (fromLittleEndian [a,b,c,d]))) 13*5+
        0xe6546b64) rest
  | [] => h1
  | tail => h1 ^^^ mixBlock (BitVec.ofNat 32 (fromLittleEndian tail))

def murmurHash3 (nHashSeed : Uint32) (vDataToHash : List UInt8) : Uint32 :=
  let h1 := murmurBody nHashSeed vDataToHash
  let h1 := h1 ^^^ BitVec.ofNat 32 vDataToHash.length
  let h1 := h1 ^^^ (h1 >>> 16)
  let h1 := h1*0x85ebca6b
  let h1 := h1 ^^^ (h1 >>> 13)
  let h1 := h1*0xc2b2ae35
  h1 ^^^ (h1 >>> 16)

example : murmurHash3 0xFBA4C795 [0] = 0xea3f0b17 ∧
    murmurHash3 0 [0,0x11,0x22,0x33,0x44,0x55,0x66] = 0xb074502c := by decide

def BLOOM_UPDATE_ALL : UInt8 := 1

def BLOOM_UPDATE_P2PUBKEY_ONLY : UInt8 := 2

def BLOOM_UPDATE_MASK : UInt8 := 3

structure CBloomFilter where
  vData : List UInt8
  isFull : Bool
  isEmpty : Bool
  nHashFuncs : Uint32
  nTweak : Uint32
  nFlags : UInt8
  deriving DecidableEq, Repr

namespace CBloomFilter

/-- `CBloomFilter()`. -/
def new : CBloomFilter := ⟨[],true,false,0,0,0⟩

/-- What is read from a message; the other fields are those of `CBloomFilter()`. -/
def unserialize : Reader ReadFailure CBloomFilter := do
  let vData ← unserializeBytes
  let nHashFuncs ← readUint 4
  let nTweak ← readUint 4
  let nFlags ← readUint 1
  pure { new with
    vData := vData
    nHashFuncs := BitVec.ofNat 32 nHashFuncs
    nTweak := BitVec.ofNat 32 nTweak
    nFlags := UInt8.ofNat nFlags }

def serialize (f : CBloomFilter) : List UInt8 :=
  serializeBytes f.vData ++ (littleEndian 4 f.nHashFuncs.toNat ++
    (littleEndian 4 f.nTweak.toNat ++ littleEndian 1 f.nFlags.toNat))

def updateEmptyFull (f : CBloomFilter) : CBloomFilter :=
  { f with isFull := f.vData.all (· == 0xff), isEmpty := f.vData.all (· == 0) }

/-- `Hash`; `none` is a division by zero. -/
def hash (f : CBloomFilter) (nHashNum : Nat) (vDataToHash : List UInt8) : Option Nat :=
  let size := f.vData.length*8%2^64
  if size = 0 then none
  else
    some ((murmurHash3 (BitVec.ofNat 32 nHashNum*0xFBA4C795+f.nTweak) vDataToHash).toNat%size)

def insert (f : CBloomFilter) (vKey : List UInt8) : Option CBloomFilter :=
  if f.isFull then some f
  else do
    let vData ← (List.range f.nHashFuncs.toNat).foldlM (fun vData i => do
      let nIndex ← f.hash i vKey
      setBitAt vData nIndex) f.vData
    pure { f with vData := vData, isEmpty := false }

def insertOutPoint (f : CBloomFilter) (outpoint : COutPoint) : Option CBloomFilter :=
  f.insert outpoint.serialize

/-- The loop of `contains`. -/
def checkBits (f : CBloomFilter) (vKey : List UInt8) : List Nat → Option Bool
  | [] => some true
  | i :: rest => do
      let nIndex ← f.hash i vKey
      let bit ← testBitAt f.vData nIndex
      if bit then checkBits f vKey rest else some false

def contains (f : CBloomFilter) (vKey : List UInt8) : Option Bool :=
  if f.isFull then some true
  else if f.isEmpty then some false
  else f.checkBits vKey (List.range f.nHashFuncs.toNat)

def containsOutPoint (f : CBloomFilter) (outpoint : COutPoint) : Option Bool :=
  f.contains outpoint.serialize

def containsHash (f : CBloomFilter) (hash : Uint256) : Option Bool :=
  f.contains (littleEndian 32 hash.toNat)

/-- The loops of `IsRelevantAndUpdate` over a script: whether some data in it matches. -/
def matchesScript (f : CBloomFilter) (script : CScript) : Option Bool :=
  match _h : getOp script with
  | (none,_) => some false
  | (some op,pc) => do
      let found ← if op.data.length ≠ 0 then f.contains op.data else some false
      if found then some true
      else matchesScript f pc
  termination_by script.length
  decreasing_by exact getOp_length _h

/-- Which matched outputs are added. -/
def updatesFor (f : CBloomFilter) (fDataCarrier : Bool) (scriptPubKey : CScript) : Bool :=
  if f.nFlags &&& BLOOM_UPDATE_MASK = BLOOM_UPDATE_ALL then true
  else if f.nFlags &&& BLOOM_UPDATE_MASK = BLOOM_UPDATE_P2PUBKEY_ONLY then
    let (solved,type,_) := solver fDataCarrier scriptPubKey
    solved && (type == .pubkey || type == .multisig)
  else false

def addMatched (f : CBloomFilter) (fDataCarrier : Bool) (outpoint : COutPoint)
    (scriptPubKey : CScript) : Option CBloomFilter :=
  if f.updatesFor fDataCarrier scriptPubKey then f.insertOutPoint outpoint else some f

/-- The loop over the outputs, from output `i`, with the filter as it becomes. -/
def checkOutputs (fDataCarrier : Bool) (hash : Uint256) (f : CBloomFilter) (fFound : Bool)
    (i : Nat) : List CTxOut → Option (CBloomFilter × Bool)
  | [] => some (f,fFound)
  | txout :: rest => do
      let found ← f.matchesScript txout.scriptPubKey
      if found then do
        let f ← f.addMatched fDataCarrier ⟨hash,i⟩ txout.scriptPubKey
        checkOutputs fDataCarrier hash f true (i+1) rest
      else checkOutputs fDataCarrier hash f fFound (i+1) rest

def checkInputs (f : CBloomFilter) : List CTxIn → Option Bool
  | [] => some false
  | txin :: rest => do
      let spends ← f.containsOutPoint txin.prevout
      if spends then some true
      else do
        let found ← f.matchesScript txin.scriptSig
        if found then some true else checkInputs f rest

def isRelevantAndUpdate (getTxHash : CTransaction → Uint256) (fDataCarrier : Bool)
    (f : CBloomFilter) (tx : CTransaction) : Option (CBloomFilter × Bool) :=
  if f.isFull then some (f,true)
  else if f.isEmpty then some (f,false)
  else do
    let fFound ← f.containsHash (getTxHash tx)
    let (f,fFound) ← checkOutputs fDataCarrier (getTxHash tx) f fFound 0 tx.vout
    if fFound then some (f,true)
    else do
      let relevant ← f.checkInputs tx.vin
      some (f,relevant)

section Bits

/-- The filters in use: one that is not full has bits to index. -/
structure Valid (f : CBloomFilter) : Prop where
  sized : f.isFull = false → f.vData ≠ []
  bounded : f.vData.length ≤ MAX_SIZE

/-- What indexing needs of them: `size_t` holds the number of bits. -/
structure Indexed (f : CBloomFilter) : Prop where
  sized : f.isFull = false → f.vData ≠ []
  bounded : f.vData.length*8 < 2^64

/-- The bit that a hash function chooses. -/
def position (f : CBloomFilter) (key : List UInt8) (i : Nat) : Nat :=
  (murmurHash3 (BitVec.ofNat 32 i*0xFBA4C795+f.nTweak) key).toNat%(f.vData.length*8)

def positions (f : CBloomFilter) (key : List UInt8) : List Nat :=
  (List.range f.nHashFuncs.toNat).map (f.position key)

def positionSet (f : CBloomFilter) (key : List UInt8) : Set Nat := {n | n ∈ f.positions key}

/-- The keys in the filter, by its bits alone. -/
def Holds (f : CBloomFilter) (key : List UInt8) : Prop :=
  InFilter f.positionSet (bitSet f.vData) key

/-- One filter is another one with keys added. -/
structure Grows (f f' : CBloomFilter) : Prop where
  funcs : f'.nHashFuncs = f.nHashFuncs
  tweak : f'.nTweak = f.nTweak
  flags : f'.nFlags = f.nFlags
  length : f'.vData.length = f.vData.length
  full : f'.isFull = f.isFull
  empty : f.isEmpty = false → f'.isEmpty = false
  bits : bitSet f.vData ⊆ bitSet f'.vData

variable {f f' f'' : CBloomFilter} {key : List UInt8}

theorem Grows.refl (f : CBloomFilter) : Grows f f := ⟨rfl,rfl,rfl,rfl,rfl,id,Set.Subset.rfl⟩

theorem Grows.trans (h : Grows f f') (h' : Grows f' f'') : Grows f f'' where
  funcs := h'.funcs.trans h.funcs
  tweak := h'.tweak.trans h.tweak
  flags := h'.flags.trans h.flags
  length := h'.length.trans h.length
  full := h'.full.trans h.full
  empty := fun he => h'.empty (h.empty he)
  bits := Set.Subset.trans h.bits h'.bits

theorem Valid.indexed (h : f.Valid) : f.Indexed where
  sized := h.sized
  bounded := by
    have hb := h.bounded
    unfold MAX_SIZE at hb
    omega

theorem Grows.indexed (h : Grows f f') (hv : f.Indexed) : f'.Indexed where
  sized := by
    intro hfull hnil
    have hlen := h.length
    rw [h.full] at hfull
    rw [hnil] at hlen
    exact hv.sized hfull (List.length_eq_zero_iff.mp hlen.symm)
  bounded := by
    rw [h.length]
    exact hv.bounded

theorem Grows.positionSet (h : Grows f f') : f'.positionSet = f.positionSet := by
  have hpos : f'.position = f.position := by
    funext key i
    rw [position,position,h.tweak,h.length]
  funext key
  rw [CBloomFilter.positionSet,CBloomFilter.positionSet,positions,positions,h.funcs,hpos]

theorem Grows.holds (h : Grows f f') (hold : f.Holds key) : f'.Holds key := by
  unfold Holds at *
  rw [h.positionSet]
  exact hold.mono h.bits

theorem hash_eq (hv : f.Indexed) (hfull : f.isFull = false) (i : Nat) (key : List UInt8) :
    f.hash i key = some (f.position key i) ∧ f.position key i < f.vData.length*8 := by
  have hpos : 0 < f.vData.length := List.length_pos_of_ne_nil (hv.sized hfull)
  have hsize : f.vData.length*8%2^64 = f.vData.length*8 := by
    have hb := hv.bounded
    omega
  unfold hash position
  rw [hsize]
  simp only
  rw [if_neg (by omega)]
  exact ⟨rfl,Nat.mod_lt _ (by omega)⟩

theorem checkBits_spec (hv : f.Indexed) (hfull : f.isFull = false) (key : List UInt8)
    (is : List Nat) : ∃ b, f.checkBits key is = some b ∧
      (b = true ↔ ∀ i ∈ is, f.position key i ∈ bitSet f.vData) := by
  induction is with
  | nil => exact ⟨true,rfl,by simp⟩
  | cons i is ih =>
    obtain ⟨hhash,hlt⟩ := hash_eq hv hfull i key
    obtain ⟨bit,hbit⟩ := testBitAt_of_lt hlt
    obtain ⟨b,hcheck,hb⟩ := ih
    unfold checkBits
    rw [hhash]
    simp only [Option.bind_eq_bind,Option.bind_some,hbit,List.forall_mem_cons,bitSet,
      Set.mem_ofPred_eq,Option.some.injEq]
    cases bit with
    | true => exact ⟨b,hcheck,by simpa [bitSet] using hb⟩
    | false => exact ⟨false,rfl,by simp⟩

theorem contains_spec (hv : f.Indexed) (key : List UInt8) : ∃ b, f.contains key = some b ∧
    (b = true ↔ f.isFull = true ∨ (f.isEmpty = false ∧ f.Holds key)) := by
  unfold contains
  cases hfull : f.isFull with
  | true => exact ⟨true,rfl,by simp⟩
  | false =>
    cases hempty : f.isEmpty with
    | true => exact ⟨false,rfl,by simp⟩
    | false =>
      obtain ⟨b,hcheck,hb⟩ := checkBits_spec hv hfull key (List.range f.nHashFuncs.toNat)
      refine ⟨b,hcheck,?_⟩
      rw [hb]
      simp [Holds,InFilter,positionSet,positions,Set.subset_def]

theorem contains_iff (hv : f.Indexed) : f.contains key = some true ↔
    f.isFull = true ∨ (f.isEmpty = false ∧ f.Holds key) := by
  obtain ⟨b,hcontains,hb⟩ := contains_spec hv key
  rw [hcontains,Option.some.injEq,hb]

/-- What is in a filter stays in it. -/
theorem Grows.contains (h : Grows f f') (hv : f.Indexed) (hkey : f.contains key = some true) :
    f'.contains key = some true := by
  rw [contains_iff (h.indexed hv),h.full]
  rcases (contains_iff hv).mp hkey with hfull | ⟨hempty,hold⟩
  · exact .inl hfull
  · exact .inr ⟨h.empty hempty,h.holds hold⟩

/-- A key is added, and no other one is lost. -/
theorem insert_spec (hv : f.Indexed) (key : List UInt8) : ∃ f', f.insert key = some f' ∧
    Grows f f' ∧ f'.contains key = some true := by
  by_cases hfull : f.isFull = true
  · exact ⟨f,if_pos hfull,.refl f,(contains_iff hv).mpr (.inl hfull)⟩
  · have hpart : f.isFull = false := by simpa using hfull
    have hlt : ∀ n ∈ f.positions key, n < f.vData.length*8 := by
      intro n hn
      obtain ⟨i,-,rfl⟩ := List.mem_map.mp hn
      exact (hash_eq hv hpart i key).2
    obtain ⟨vData,hfold,hlen,hbits⟩ := setBitsAt_of_lt hlt
    have hstep : (fun (vData : List UInt8) i => (f.hash i key).bind (setBitAt vData)) =
        fun vData i => setBitAt vData (f.position key i) := by
      funext vData i
      rw [(hash_eq hv hpart i key).1,Option.bind_some]
    rw [positions,List.foldlM_map] at hfold
    have hgrows : Grows f { f with vData := vData, isEmpty := false } :=
      ⟨rfl,rfl,rfl,hlen,rfl,fun _ => rfl,by rw [hbits]; exact Set.subset_union_right⟩
    refine ⟨{ f with vData := vData, isEmpty := false },?_,hgrows,?_⟩
    · rw [insert,if_neg hfull]
      simp only [Option.bind_eq_bind,hstep,hfold,Option.bind_some]
      rfl
    · rw [contains_iff (hgrows.indexed hv)]
      refine .inr ⟨rfl,?_⟩
      unfold Holds
      rw [hgrows.positionSet,hbits]
      exact inFilter_add _ _

end Bits

section Transactions

/-- Data that a script pushes before anything in it that is no instruction. -/
inductive Pushes : CScript → Valtype → Prop
  | here {script pc : CScript} {op : Op} : getOp script = (some op,pc) → Pushes script op.data
  | later {script pc : CScript} {op : Op} {data : Valtype} : getOp script = (some op,pc) →
      Pushes pc data → Pushes script data

/-- Some data in the script is in the filter. -/
def Matches (f : CBloomFilter) (script : CScript) : Prop :=
  ∃ data, Pushes script data ∧ data ≠ [] ∧ f.contains data = some true

variable {f f' : CBloomFilter} (getTxHash : CTransaction → Uint256) (fDataCarrier : Bool)

theorem pushes_iff {script pc : CScript} {op : Op} (h : getOp script = (some op,pc))
    (data : Valtype) : Pushes script data ↔ data = op.data ∨ Pushes pc data := by
  constructor
  · intro hpush
    cases hpush with
    | here h' =>
      obtain ⟨hop,-⟩ := Prod.mk.inj (h.symm.trans h')
      exact .inl (by rw [Option.some.inj hop])
    | later h' hlater =>
      obtain ⟨-,rfl⟩ := Prod.mk.inj (h.symm.trans h')
      exact .inr hlater
  · rintro (rfl | hlater)
    · exact .here h
    · exact .later h hlater

theorem not_pushes {script pc : CScript} (h : getOp script = (none,pc)) (data : Valtype) :
    ¬Pushes script data := by
  intro hpush
  cases hpush with
  | here h' => exact absurd (h.symm.trans h') (by simp)
  | later h' => exact absurd (h.symm.trans h') (by simp)

theorem matchesScript_spec (hv : f.Indexed) (script : CScript) :
    ∃ b, f.matchesScript script = some b ∧ (b = true ↔ f.Matches script) := by
  induction hlen : script.length using Nat.strong_induction_on generalizing script with
  | _ n ih =>
    subst hlen
    unfold matchesScript
    split
    · rename_i hop
      refine ⟨false,rfl,?_⟩
      simp [Matches,not_pushes hop]
    · rename_i op pc hop
      obtain ⟨b,hrest,hb⟩ := ih pc.length (getOp_length hop) pc rfl
      obtain ⟨c,hdata,-⟩ := contains_spec hv op.data
      have hsplit : f.Matches script ↔ (op.data ≠ [] ∧ c = true) ∨ f.Matches pc := by
        simp only [Matches,pushes_iff hop,or_and_right,exists_or,exists_eq_left,hdata,
          Option.some.injEq]
      rw [hsplit,← hb,hrest,hdata]
      by_cases hempty : op.data = []
      · exact ⟨b,by simp [hempty],by simp [hempty]⟩
      · cases c with
        | true => exact ⟨true,by simp [hempty],by simp [hempty]⟩
        | false => exact ⟨b,by simp [hempty],by simp⟩

/-- Output `j` matches when it is tested: after the outputs before it, of which the first has
number `i`. -/
def MatchedAt (fDataCarrier : Bool) (hash : Uint256) (f : CBloomFilter) (i : Nat)
    (vout : List CTxOut) (j : Nat) : Prop :=
  ∃ txout mid fFound found, vout[j]? = some txout ∧
    checkOutputs fDataCarrier hash f fFound i (vout.take j) = some (mid,found) ∧
      mid.Matches txout.scriptPubKey

/-- What the loop over the outputs leaves for the output with number `i+j`. -/
def Noted (fDataCarrier : Bool) (hash : Uint256) (f f' : CBloomFilter) (found : Bool) (i : Nat)
    (vout : List CTxOut) (j : Nat) : Prop :=
  found = true ∧ ∀ txout, vout[j]? = some txout →
    f.updatesFor fDataCarrier txout.scriptPubKey = true →
      f'.containsOutPoint ⟨hash,i+j⟩ = some true

theorem Grows.updatesFor (h : Grows f f') (scriptPubKey : CScript) :
    f'.updatesFor fDataCarrier scriptPubKey = f.updatesFor fDataCarrier scriptPubKey := by
  unfold CBloomFilter.updatesFor
  rw [h.flags]

theorem addMatched_spec (hv : f.Indexed) (outpoint : COutPoint) (scriptPubKey : CScript) :
    ∃ f', f.addMatched fDataCarrier outpoint scriptPubKey = some f' ∧ Grows f f' ∧
      (f.updatesFor fDataCarrier scriptPubKey = true →
        f'.containsOutPoint outpoint = some true) := by
  unfold addMatched
  by_cases hupdate : f.updatesFor fDataCarrier scriptPubKey = true
  · obtain ⟨f',hinsert,hgrows,hkey⟩ := insert_spec hv outpoint.serialize
    exact ⟨f',by rw [if_pos hupdate]; exact hinsert,hgrows,fun _ => hkey⟩
  · exact ⟨f,if_neg hupdate,.refl f,fun h => absurd h hupdate⟩

theorem checkOutputs_spec (hash : Uint256) (hv : f.Indexed) (fFound : Bool) (i : Nat)
    (vout : List CTxOut) :
    ∃ f' found, checkOutputs fDataCarrier hash f fFound i vout = some (f',found) ∧ Grows f f' ∧
      (fFound = true → found = true) ∧
      ∀ j, MatchedAt fDataCarrier hash f i vout j →
        Noted fDataCarrier hash f f' found i vout j := by
  induction vout generalizing f fFound i with
  | nil =>
    refine ⟨f,fFound,rfl,.refl f,id,fun j hj => ?_⟩
    obtain ⟨txout,-,-,-,hget,-⟩ := hj
    exact absurd hget (by simp)
  | cons txout rest ih =>
    obtain ⟨b,hmatch,hb⟩ := matchesScript_spec hv txout.scriptPubKey
    cases b with
    | true =>
      obtain ⟨mid,hmid,hgrows,hadded⟩ :=
        addMatched_spec fDataCarrier hv ⟨hash,i⟩ txout.scriptPubKey
      have hstep : ∀ fFound outs, checkOutputs fDataCarrier hash f fFound i (txout :: outs) =
          checkOutputs fDataCarrier hash mid true (i+1) outs := by
        intro fFound outs
        rw [checkOutputs]
        simp only [hmatch,Option.bind_eq_bind,Option.bind_some,if_true,hmid]
      obtain ⟨f',found,hrest,hgrows',hfound,hnoted⟩ := ih (hgrows.indexed hv) true (i+1)
      refine ⟨f',found,by rw [hstep,hrest],hgrows.trans hgrows',fun _ => hfound rfl,?_⟩
      intro j hj
      cases j with
      | zero =>
        refine ⟨hfound rfl,fun out hout hupdate => ?_⟩
        obtain rfl : txout = out := by simpa using hout
        exact hgrows'.contains (hgrows.indexed hv) (hadded hupdate)
      | succ j =>
        obtain ⟨out,last,fFound',found',hget,hrun,hmatches⟩ := hj
        rw [List.take_succ_cons,hstep] at hrun
        obtain ⟨htrue,hout⟩ := hnoted j ⟨out,last,true,found',by simpa using hget,hrun,hmatches⟩
        refine ⟨htrue,fun out hget hupdate => ?_⟩
        rw [show i+(j+1) = i+1+j by omega]
        exact hout out (by simpa using hget) (by rw [hgrows.updatesFor]; exact hupdate)
    | false =>
      have hno : ¬f.Matches txout.scriptPubKey := fun h => absurd (hb.mpr h) (by simp)
      have hstep : ∀ fFound outs, checkOutputs fDataCarrier hash f fFound i (txout :: outs) =
          checkOutputs fDataCarrier hash f fFound (i+1) outs := by
        intro fFound outs
        rw [checkOutputs]
        simp only [hmatch,Option.bind_eq_bind,Option.bind_some,Bool.false_eq_true,if_false]
      obtain ⟨f',found,hrest,hgrows,hfound,hnoted⟩ := ih hv fFound (i+1)
      refine ⟨f',found,by rw [hstep,hrest],hgrows,hfound,?_⟩
      intro j hj
      obtain ⟨out,last,fFound',found',hget,hrun,hmatches⟩ := hj
      cases j with
      | zero =>
        obtain rfl : txout = out := by simpa using hget
        obtain ⟨rfl,-⟩ := Prod.mk.inj (Option.some.inj hrun)
        exact absurd hmatches hno
      | succ j =>
        rw [List.take_succ_cons,hstep] at hrun
        obtain ⟨htrue,hout⟩ := hnoted j ⟨out,last,fFound',found',by simpa using hget,hrun,hmatches⟩
        refine ⟨htrue,fun out hget hupdate => ?_⟩
        rw [show i+(j+1) = i+1+j by omega]
        exact hout out (by simpa using hget) hupdate

theorem checkInputs_spec (hv : f.Indexed) (vin : List CTxIn) : ∃ b, f.checkInputs vin = some b ∧
    ((∃ txin ∈ vin, f.containsOutPoint txin.prevout = some true) → b = true) := by
  induction vin with
  | nil => exact ⟨false,rfl,by simp⟩
  | cons txin rest ih =>
    obtain ⟨b,hrest,hb⟩ := ih
    obtain ⟨c,hspends,-⟩ := contains_spec hv txin.prevout.serialize
    obtain ⟨d,hmatch,-⟩ := matchesScript_spec hv txin.scriptSig
    have hprevout : f.containsOutPoint txin.prevout = some c := hspends
    rw [checkInputs,hprevout]
    simp only [Option.bind_eq_bind,Option.bind_some,hmatch,hrest]
    cases c with
    | true => exact ⟨true,rfl,fun _ => rfl⟩
    | false =>
      cases d with
      | true => exact ⟨true,rfl,fun _ => rfl⟩
      | false =>
        refine ⟨b,rfl,fun hspent => hb ?_⟩
        obtain ⟨other,hmem,hother⟩ := hspent
        rcases List.mem_cons.mp hmem with rfl | hmem
        · exact absurd (hprevout.symm.trans hother) (by simp)
        · exact ⟨other,hmem,hother⟩

/-- Nothing matches a filter without keys. -/
theorem checkOutputs_empty {hash : Uint256} (hv : f.Indexed) (hfull : f.isFull = false)
    (hempty : f.isEmpty = true) (fFound : Bool) (i : Nat) (vout : List CTxOut) :
    checkOutputs fDataCarrier hash f fFound i vout = some (f,fFound) := by
  induction vout generalizing i with
  | nil => rfl
  | cons txout rest ih =>
    obtain ⟨b,hmatch,hb⟩ := matchesScript_spec hv txout.scriptPubKey
    cases b with
    | true =>
      obtain ⟨data,-,-,hdata⟩ := hb.mp rfl
      rw [contains_iff hv] at hdata
      simp [hfull,hempty] at hdata
    | false =>
      rw [checkOutputs]
      simp only [hmatch,Option.bind_eq_bind,Option.bind_some,Bool.false_eq_true,if_false]
      exact ih (i+1)

/-- The test of a transaction returns, and it is positive when the transaction spends what is in
the filter; each output that matches is found, and added where the flags ask for it. -/
theorem isRelevantAndUpdate_spec (hv : f.Indexed) (tx : CTransaction) :
    ∃ f' relevant, isRelevantAndUpdate getTxHash fDataCarrier f tx = some (f',relevant) ∧
      Grows f f' ∧
      ((∃ txin ∈ tx.vin, f.containsOutPoint txin.prevout = some true) → relevant = true) ∧
      ∀ j, MatchedAt fDataCarrier (getTxHash tx) f 0 tx.vout j →
        Noted fDataCarrier (getTxHash tx) f f' relevant 0 tx.vout j := by
  unfold isRelevantAndUpdate
  by_cases hfull : f.isFull = true
  · refine ⟨f,true,if_pos hfull,.refl f,fun _ => rfl,fun j _ => ⟨rfl,fun txout _ _ => ?_⟩⟩
    exact (contains_iff hv).mpr (.inl hfull)
  · have hpart : f.isFull = false := by simpa using hfull
    rw [if_neg hfull]
    by_cases hempty : f.isEmpty = true
    · refine ⟨f,false,if_pos hempty,.refl f,fun hspent => ?_,fun j hj => ?_⟩
      · obtain ⟨txin,-,hkey⟩ := hspent
        rw [containsOutPoint,contains_iff hv] at hkey
        simp [hpart,hempty] at hkey
      · obtain ⟨txout,mid,fFound,found,-,hrun,data,-,-,hdata⟩ := hj
        rw [checkOutputs_empty fDataCarrier hv hpart hempty] at hrun
        obtain ⟨rfl,-⟩ := Prod.mk.inj (Option.some.inj hrun)
        rw [contains_iff hv] at hdata
        simp [hpart,hempty] at hdata
    · obtain ⟨fFound,hhash,-⟩ := contains_spec hv (littleEndian 32 (getTxHash tx).toNat)
      obtain ⟨f',found,houtputs,hgrows,-,hnoted⟩ := checkOutputs_spec
        fDataCarrier (getTxHash tx) hv fFound 0 tx.vout
      obtain ⟨b,hinputs,hb⟩ := checkInputs_spec (hgrows.indexed hv) tx.vin
      rw [if_neg hempty,containsHash,hhash]
      simp only [Option.bind_eq_bind,Option.bind_some,houtputs,hinputs]
      cases found with
      | true => exact ⟨f',true,rfl,hgrows,fun _ => rfl,hnoted⟩
      | false =>
        refine ⟨f',b,rfl,hgrows,fun hspent => hb ?_,fun j hj => ?_⟩
        · obtain ⟨txin,hmem,hkey⟩ := hspent
          exact ⟨txin,hmem,hgrows.contains hv hkey⟩
        · exact absurd (hnoted j hj).1 (by simp)

end Transactions

section Runs

/-- What happens to the filter of a peer. -/
inductive BloomEvent where
  | insert (vKey : List UInt8)
  | test (tx : CTransaction)

variable (getTxHash : CTransaction → Uint256) (fDataCarrier : Bool)

def apply (f : CBloomFilter) : BloomEvent → Option CBloomFilter
  | .insert vKey => f.insert vKey
  | .test tx => (f.isRelevantAndUpdate getTxHash fDataCarrier tx).map Prod.fst

def run (f : CBloomFilter) (events : List BloomEvent) : Option CBloomFilter :=
  events.foldlM (apply getTxHash fDataCarrier) f

/-- The filters that peers start with. -/
inductive Initial : CBloomFilter → Prop
  | loaded {f : CBloomFilter} {s s' : Stream} : unserialize s = .ok f s' → Initial f.updateEmptyFull
  | new : Initial new

/-- Output `j` of a transaction matched when the run tested the transaction. -/
def MatchedIn (f : CBloomFilter) (events : List BloomEvent) (tx : CTransaction) (j : Nat) : Prop :=
  ∃ before after mid, events = before ++ .test tx :: after ∧
    run getTxHash fDataCarrier f before = some mid ∧
      MatchedAt fDataCarrier (getTxHash tx) mid 0 tx.vout j

variable {f f' : CBloomFilter}

/-- Every filter that fits in a message can be loaded. -/
theorem reads_unserialize (h : f.vData.length ≤ MAX_SIZE) :
    Reads unserialize f.serialize { f with isFull := true, isEmpty := false } := by
  have hfuncs : f.nHashFuncs.toNat < 256^4 := lt_of_lt_of_eq f.nHashFuncs.isLt (by decide)
  have htweak : f.nTweak.toNat < 256^4 := lt_of_lt_of_eq f.nTweak.isLt (by decide)
  have hflags : f.nFlags.toNat < 256^1 := lt_of_lt_of_eq f.nFlags.toNat_lt (by decide)
  have hall : Reads unserialize f.serialize { f with
      isFull := true
      isEmpty := false
      nHashFuncs := BitVec.ofNat 32 f.nHashFuncs.toNat
      nTweak := BitVec.ofNat 32 f.nTweak.toNat
      nFlags := UInt8.ofNat f.nFlags.toNat } :=
    (reads_unserializeBytes h).bind ((reads_readUint hfuncs).bind
      ((reads_readUint htweak).bind ((reads_readUint hflags).map (Reads.pure _))))
  rw [BitVec.ofNat_toNat,BitVec.setWidth_eq,BitVec.ofNat_toNat,BitVec.setWidth_eq,
    UInt8.ofNat_toNat] at hall
  exact hall

theorem Initial.valid (h : Initial f) : f.Valid := by
  cases h with
  | new => exact ⟨by simp [CBloomFilter.new],by simp [CBloomFilter.new]⟩
  | @loaded f s s' hread =>
    obtain ⟨vData,s1,hdata,hread⟩ := bind_eq_ok.mp hread
    obtain ⟨nHashFuncs,s2,-,hread⟩ := bind_eq_ok.mp hread
    obtain ⟨nTweak,s3,-,hread⟩ := bind_eq_ok.mp hread
    obtain ⟨nFlags,s4,-,hread⟩ := bind_eq_ok.mp hread
    obtain ⟨rfl,-⟩ := pure_eq_ok.mp hread
    refine ⟨fun hfull hnil => ?_,(unserializeBytes_eq_ok hdata).1⟩
    -- a filter without bytes counts as full
    simp only [updateEmptyFull] at hfull hnil
    simp [hnil] at hfull

theorem apply_spec (hv : f.Indexed) (e : BloomEvent) :
    ∃ f', f.apply getTxHash fDataCarrier e = some f' ∧ Grows f f' := by
  cases e with
  | insert vKey =>
    obtain ⟨f',hinsert,hgrows,-⟩ := insert_spec hv vKey
    exact ⟨f',hinsert,hgrows⟩
  | test tx =>
    obtain ⟨f',relevant,htest,hgrows,-⟩ := isRelevantAndUpdate_spec
      getTxHash fDataCarrier hv tx
    exact ⟨f',by rw [apply,htest]; rfl,hgrows⟩

theorem run_spec (hv : f.Indexed) (events : List BloomEvent) :
    ∃ f', f.run getTxHash fDataCarrier events = some f' ∧ Grows f f' := by
  induction events generalizing f with
  | nil => exact ⟨f,rfl,.refl f⟩
  | cons e events ih =>
    obtain ⟨mid,hstep,hgrows⟩ := apply_spec getTxHash
      fDataCarrier hv e
    obtain ⟨f',hrun,hgrows'⟩ := ih (hgrows.indexed hv)
    refine ⟨f',?_,hgrows.trans hgrows'⟩
    rw [run,List.foldlM_cons,hstep]
    exact hrun

/-- A run in two parts, around one of its events. -/
theorem run_split (hv : f.Indexed) (before after : List BloomEvent) (e : BloomEvent) :
    ∃ mid next f', f.run getTxHash fDataCarrier before = some mid ∧ Grows f mid ∧
      mid.apply getTxHash fDataCarrier e = some next ∧ Grows mid next ∧
      f.run getTxHash fDataCarrier (before ++ e :: after) = some f' ∧ Grows next f' := by
  obtain ⟨mid,hbefore,hgrows⟩ := run_spec getTxHash
    fDataCarrier hv before
  obtain ⟨next,hstep,hgrows'⟩ := apply_spec getTxHash
    fDataCarrier (hgrows.indexed hv) e
  obtain ⟨f',hafter,hgrows''⟩ := run_spec getTxHash
    fDataCarrier (hgrows'.indexed (hgrows.indexed hv)) after
  refine ⟨mid,next,f',hbefore,hgrows,hstep,hgrows',?_,hgrows''⟩
  unfold run at *
  rw [List.foldlM_append,hbefore]
  simp only [Option.bind_eq_bind,Option.bind_some,List.foldlM_cons,hstep]
  exact hafter

/-- No key is lost: whatever happens to a filter, it contains what was inserted and, where the
flags ask for it, the outputs that matched, whose spenders are relevant with
`BLOOM_UPDATE_ALL`. No step of a run divides by zero or leaves the bits. -/
theorem no_false_negatives (h : Initial f) (events : List BloomEvent) :
    ∃ f', f.run getTxHash fDataCarrier events = some f' ∧
      (∀ key, ∃ b, f'.contains key = some b) ∧
      (∀ vKey, .insert vKey ∈ events → f'.contains vKey = some true) ∧
      (∀ tx j txout, f.MatchedIn getTxHash fDataCarrier events tx j → tx.vout[j]? = some txout →
        f.updatesFor fDataCarrier txout.scriptPubKey = true →
          f'.containsOutPoint ⟨getTxHash tx,j⟩ = some true) ∧
      (f.nFlags &&& BLOOM_UPDATE_MASK = BLOOM_UPDATE_ALL →
        ∀ tx j spender, f.MatchedIn getTxHash fDataCarrier events tx j →
          (∃ txin ∈ spender.vin, txin.prevout = ⟨getTxHash tx,j⟩) →
            ∃ f'', f'.isRelevantAndUpdate getTxHash fDataCarrier spender = some (f'',true)) := by
  have hv := h.valid.indexed
  obtain ⟨f',hrun,hgrows⟩ := run_spec getTxHash fDataCarrier
    hv events
  have hv' := hgrows.indexed hv
  have hnoted : ∀ tx j txout, f.MatchedIn getTxHash fDataCarrier events tx j →
      tx.vout[j]? = some txout → f.updatesFor fDataCarrier txout.scriptPubKey = true →
        f'.containsOutPoint ⟨getTxHash tx,j⟩ = some true := by
    intro tx j txout hmatched hget hupdate
    obtain ⟨before,after,mid,rfl,hbefore,hat⟩ := hmatched
    obtain ⟨mid',next,last,hmid,hg,hstep,hg',hlast,hg''⟩ := run_split
      getTxHash fDataCarrier hv before after (.test tx)
    obtain rfl := Option.some.inj (hbefore.symm.trans hmid)
    obtain rfl := Option.some.inj (hrun.symm.trans hlast)
    obtain ⟨next',relevant,htest,-,-,hnotes⟩ := isRelevantAndUpdate_spec
      getTxHash fDataCarrier (hg.indexed hv) tx
    rw [apply,htest] at hstep
    obtain rfl := Option.some.inj hstep
    have hkey := (hnotes j hat).2 txout hget (by rw [hg.updatesFor]; exact hupdate)
    rw [Nat.zero_add] at hkey
    exact hg''.contains (hg'.indexed (hg.indexed hv)) hkey
  refine ⟨f',hrun,fun key => ?_,fun vKey hmem => ?_,hnoted,fun hall tx j spender hmatched hspends => ?_⟩
  · obtain ⟨b,hcontains,-⟩ := contains_spec hv' key
    exact ⟨b,hcontains⟩
  · obtain ⟨before,after,rfl⟩ := List.append_of_mem hmem
    obtain ⟨mid,next,last,-,hg,hstep,hg',hlast,hg''⟩ := run_split
      getTxHash fDataCarrier hv before after (.insert vKey)
    obtain rfl := Option.some.inj (hrun.symm.trans hlast)
    obtain ⟨next',hinsert,-,hkey⟩ := insert_spec (hg.indexed hv) vKey
    obtain rfl := Option.some.inj (hinsert.symm.trans hstep)
    exact hg''.contains (hg'.indexed (hg.indexed hv)) hkey
  · obtain ⟨txin,hmem,hprevout⟩ := hspends
    obtain ⟨txout,hget⟩ : ∃ txout, tx.vout[j]? = some txout := by
      obtain ⟨_,_,_,-,-,txout,_,_,_,hget,-⟩ := hmatched
      exact ⟨txout,hget⟩
    have hkey := hnoted tx j txout hmatched hget (if_pos hall)
    obtain ⟨f'',relevant,htest,-,hrelevant,-⟩ := isRelevantAndUpdate_spec
      getTxHash fDataCarrier hv' spender
    rw [hrelevant ⟨txin,hmem,by rw [hprevout]; exact hkey⟩] at htest
    exact ⟨f'',htest⟩

/-- A filter of one byte with two hash functions that asks for all updates. -/
def small : CBloomFilter := ⟨[0x10],true,false,2,0,BLOOM_UPDATE_ALL⟩

theorem initial_small : Initial small.updateEmptyFull := by
  obtain ⟨s',hread,-⟩ := reads_unserialize (f := small) (by decide) ⟨small.serialize,0,0⟩ []
    (by simp)
  exact .loaded hread

theorem no_false_negatives_small :
    ∃ f', small.updateEmptyFull.run (fun _ => 5) true [.insert [1,2,3]] = some f' ∧
      f'.contains [1,2,3] = some true := by
  obtain ⟨f',hrun,-,hinserted,-⟩ := no_false_negatives (fun _ => 5) true initial_small
    [.insert [1,2,3]]
  exact ⟨f',hrun,hinserted [1,2,3] (by simp)⟩

end Runs

end CBloomFilter

end Anoncoin
