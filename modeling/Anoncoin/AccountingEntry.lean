import Anoncoin.Lib.Text
import Anoncoin.Serialize

/-!
The accounting entries of a wallet (wallet.h, wallet.cpp): what is written behind the comment,
and what is read back. A string is the list of its bytes.
-/

set_option autoImplicit false

namespace Anoncoin
open Lib

/-- `i64tostr`. -/
def i64tostr (n : Int64) : List UInt8 :=
  (if n.toInt < 0 then '-' :: Nat.toDigits 10 n.toInt.natAbs
    else Nat.toDigits 10 n.toInt.natAbs).map Char.toUInt8

/-- The characters up to the first NUL. -/
def bytesText (str : List UInt8) : List Char := (str.takeWhile (· != 0)).map Char.ofUInt8

/-- `atoi64`, where `strtoll` stops at the bounds. -/
def atoi64 (str : List UInt8) : Int64 :=
  Int64.ofInt (max (-2^63) (min (2^63-1) (strtol (bytesText str)).1))

/-- `mapValue_t`: the entries in the order of their keys. -/
@[ext] structure MapValue where
  entries : List (List UInt8 × List UInt8)
  sorted : entries.Pairwise fun a b => a.1 < b.1
  deriving DecidableEq

/-- The key under which an entry keeps its position. -/
def orderKey : List UInt8 := [110]

namespace MapValue

def empty : MapValue := ⟨[],.nil⟩

def isEmpty (m : MapValue) : Bool := m.entries.isEmpty

def count (m : MapValue) (key : List UInt8) : Nat := m.entries.countP fun item => item.1 == key

def find (m : MapValue) (key : List UInt8) : Option (List UInt8) :=
  (m.entries.find? fun item => item.1 == key).map Prod.snd

/-- `m[key] = value`. -/
def set (m : MapValue) (key value : List UInt8) : MapValue where
  entries := (m.entries.filter fun item => item.1 < key) ++
    (key,value) :: m.entries.filter fun item => key < item.1
  sorted := by
    rw [List.pairwise_append,List.pairwise_cons]
    refine ⟨m.sorted.filter _,⟨?_,m.sorted.filter _⟩,?_⟩
    · intro b hb
      simpa using (List.mem_filter.mp hb).2
    · intro a ha b hb
      have hlow : a.1 < key := by simpa using (List.mem_filter.mp ha).2
      rcases List.mem_cons.mp hb with rfl | hb
      · exact hlow
      · have hhigh : key < b.1 := by simpa using (List.mem_filter.mp hb).2
        exact List.lt_trans hlow hhigh

def erase (m : MapValue) (key : List UInt8) : MapValue :=
  ⟨m.entries.filter fun item => item.1 != key,m.sorted.filter _⟩

/-- `insert`, which leaves an entry with the key as it is. -/
def insert (m : MapValue) (item : List UInt8 × List UInt8) : MapValue :=
  if m.count item.1 = 0 then m.set item.1 item.2 else m

def serializeItem (item : List UInt8 × List UInt8) : List UInt8 :=
  serializeBytes item.1 ++ serializeBytes item.2

def serialize (m : MapValue) : List UInt8 :=
  writeCompactSize m.entries.length ++ m.entries.flatMap serializeItem

def getSerializeSize (m : MapValue) : Nat :=
  getSizeOfCompactSize m.entries.length + (m.entries.map fun item =>
    getSizeOfCompactSize item.1.length + item.1.length +
      (getSizeOfCompactSize item.2.length + item.2.length)).sum

end MapValue

/-- `Unserialize` of a string. -/
def unserializeString : Reader ReadFailure (List UInt8) := do
  let nSize ← readCompactSize
  reserve nSize
  take .endOfData nSize

def MapValue.readItems : Nat → MapValue → Reader ReadFailure MapValue
  | 0,m => pure m
  | n+1,m => do
    countRound
    let key ← unserializeString
    let value ← unserializeString
    readItems n (m.insert (key,value))

def MapValue.unserialize : Reader ReadFailure MapValue := do
  let nSize ← readCompactSize
  MapValue.readItems nSize .empty

/-- The exceptions while an entry is read. -/
inductive EntryFailure where
  | read (failure : ReadFailure)
  | stringLengthLimit
  deriving DecidableEq, Repr

/-- `Unserialize` of a `LimitedString`. -/
def readLimitedString (limit : Nat) : Reader EntryFailure (List UInt8) := do
  let size ← EStateM.adaptExcept EntryFailure.read readCompactSize
  if limit < size then throw .stringLengthLimit
  else do
    reserve size
    take (.read .endOfData) size

/-- The members that `SerializationOp` reads and writes. -/
structure CAccountingEntry where
  nCreditDebit : Int64
  nTime : Int64
  strOtherAccount : List UInt8
  strComment : List UInt8
  mapValue : MapValue
  nOrderPos : Int64
  ssExtra : List UInt8
  deriving DecidableEq

def readOrderPos (mapValue : MapValue) : Int64 :=
  match mapValue.find orderKey with
  | none => -1
  | some value => atoi64 value

def writeOrderPos (nOrderPos : Int64) (mapValue : MapValue) : MapValue :=
  if nOrderPos = -1 then mapValue else mapValue.set orderKey (i64tostr nOrderPos)

def STRING_LIMIT : Nat := 65536

namespace CAccountingEntry

/-- `CAccountingEntry()`. -/
def null : CAccountingEntry := ⟨0,0,[],[],.empty,-1,[]⟩

/-- `strComment.erase(nSepPos)`, unless there is no separator. -/
def eraseFrom (strComment : List UInt8) (nSepPos : Option Nat) : List UInt8 :=
  match nSepPos with
  | none => strComment
  | some n => strComment.take n

/-- The comment while an entry is written, with the map and the extra bytes behind it. -/
def appendedComment (e : CAccountingEntry) (mapValue : MapValue) : List UInt8 :=
  if !(mapValue.isEmpty && e.ssExtra.isEmpty) then
    e.strComment ++ 0 :: (mapValue.serialize ++ e.ssExtra)
  else e.strComment

/-- The version, which a hash leaves out. -/
def readVersion (fGetHash : Bool) : Reader EntryFailure Int :=
  if fGetHash then pure 0 else EStateM.adaptExcept EntryFailure.read (readInt 4)

def writeVersion (fGetHash : Bool) (nVersion : Int32) : List UInt8 :=
  if fGetHash then [] else writeInt 4 nVersion.toInt

/-- `SerializationOp` for writing: the bytes, and the entry afterwards. -/
def serialize (e : CAccountingEntry) (fGetHash : Bool) (nVersion : Int32) :
    List UInt8 × CAccountingEntry :=
  let mapValue := writeOrderPos e.nOrderPos e.mapValue
  let strComment := e.appendedComment mapValue
  let nSepPos := strComment.findIdx? (· == 0)
  (writeVersion fGetHash nVersion ++
      (writeInt 8 e.nCreditDebit.toInt ++ (writeInt 8 e.nTime.toInt ++
        (serializeBytes e.strOtherAccount ++ serializeBytes strComment))),
    { e with
      strComment := eraseFrom strComment nSepPos
      mapValue := mapValue.erase orderKey })

def readInt64 : Reader EntryFailure Int64 := do
  let n ← EStateM.adaptExcept EntryFailure.read (readInt 8)
  pure (Int64.ofInt n)

/-- What stands behind the separator: the map, and the extra bytes. -/
def readBehind (strComment ssExtra : List UInt8) :
    Option Nat → Reader EntryFailure (MapValue × List UInt8)
  | none => pure (.empty,ssExtra)
  | some nSepPos =>
    match MapValue.unserialize ⟨strComment.drop (nSepPos+1),0,0⟩ with
    | .ok mapValue ss => pure (mapValue,ss.input)
    | .error failure _ => throw (.read failure)

/-- `SerializationOp` for reading. -/
def unserialize (e : CAccountingEntry) (fGetHash : Bool) :
    Reader EntryFailure CAccountingEntry := do
  let _nVersion ← readVersion fGetHash
  let nCreditDebit ← readInt64
  let nTime ← readInt64
  let strOtherAccount ← readLimitedString STRING_LIMIT
  let strComment ← readLimitedString STRING_LIMIT
  let nSepPos := strComment.findIdx? (· == 0)
  let (mapValue,ssExtra) ← readBehind strComment e.ssExtra nSepPos
  pure ⟨nCreditDebit,nTime,strOtherAccount,eraseFrom strComment nSepPos,mapValue.erase orderKey,
    readOrderPos mapValue,ssExtra⟩

/-- How much is put behind the comment. -/
def appendedSize (e : CAccountingEntry) : Nat :=
  let mapValue := writeOrderPos e.nOrderPos e.mapValue
  if mapValue.isEmpty && e.ssExtra.isEmpty then 0
  else 1+mapValue.getSerializeSize+e.ssExtra.length

end CAccountingEntry

section Numbers

theorem ofUInt8_toUInt8 {c : Char} (h : c.toNat < 128) :
    Char.ofUInt8 c.toUInt8 = c ∧ c.toUInt8.toNat = c.toNat := by
  have hbyte : c.toUInt8.toNat = c.toNat := by
    have hval : c.val.toNat < 128 := h
    show c.val.toUInt8.toNat = c.val.toNat
    rw [UInt32.toNat_toUInt8]
    omega
  refine ⟨?_,hbyte⟩
  apply Char.ext
  apply UInt32.toNat_inj.mp
  show c.toUInt8.toUInt32.toNat = c.val.toNat
  rw [UInt8.toNat_toUInt32,hbyte]
  rfl

/-- Text in ASCII is read as it was written. -/
theorem bytesText_map {str : List Char} (h : ∀ c ∈ str, 0 < c.toNat ∧ c.toNat < 128) :
    bytesText (str.map Char.toUInt8) = str := by
  have hall : ∀ b ∈ str.map Char.toUInt8, (b != 0) = true := by
    intro b hb
    obtain ⟨c,hc,rfl⟩ := List.mem_map.mp hb
    obtain ⟨hpos,hlt⟩ := h c hc
    rw [bne_iff_ne]
    intro hzero
    have hbyte := (ofUInt8_toUInt8 hlt).2
    rw [hzero] at hbyte
    exact absurd hbyte.symm (Nat.pos_iff_ne_zero.mp hpos)
  have hsame : ∀ c ∈ str, (Char.ofUInt8 ∘ Char.toUInt8) c = id c := fun c hc =>
    (ofUInt8_toUInt8 (h c hc).2).1
  unfold bytesText
  rw [List.takeWhile_eq_self_iff.mpr hall,List.map_map,List.map_congr_left hsame,List.map_id]

theorem strtol_toDigits (n : Nat) :
    (strtol (Nat.toDigits 10 n)).1 = n ∧ (strtol ('-' :: Nat.toDigits 10 n)).1 = -n := by
  have hdigits : ∀ c ∈ Nat.toDigits 10 n, c.isDigit = true := fun c hc =>
    Nat.isDigit_of_mem_toDigits (by decide) (by decide) hc
  have htake : (Nat.toDigits 10 n).takeWhile Char.isDigit = Nat.toDigits 10 n :=
    List.takeWhile_eq_self_iff.mpr hdigits
  have hvalue : (Nat.toDigits 10 n).foldl (fun n c => 10*n+(c.toNat - '0'.toNat)) 0 = n := by
    rw [← Nat.ofDigitChars_eq_foldl,Nat.ofDigitChars_ten_toDigits]
  have hsome : (Nat.toDigits 10 n).isEmpty = false := by
    rw [List.isEmpty_eq_false_iff]
    exact Nat.toDigits_ne_nil
  have hsigned (negative : Bool) (str : List Char)
      (hsign : readSign (str.dropWhile isSpace) = (negative,Nat.toDigits 10 n)) :
      (strtol str).1 = if negative then -(n : Int) else n := by
    unfold strtol
    simp only [hsign,htake,hsome,hvalue,Bool.false_eq_true,if_false]
  constructor
  · refine hsigned false _ ?_
    cases hlist : Nat.toDigits 10 n with
    | nil => exact absurd hlist Nat.toDigits_ne_nil
    | cons c rest =>
      have hc := isDigit_bounds (hdigits c (by rw [hlist]; exact List.mem_cons_self))
      have hne (d : Char) (hd : d.toNat < 48) : c ≠ d := by
        rintro rfl
        omega
      have hspace := isSpace_of_isDigit (hdigits c (by rw [hlist]; exact List.mem_cons_self))
      rw [List.dropWhile_cons_of_neg (by rw [hspace]; simp)]
      simp [readSign,hne '-' (by decide),hne '+' (by decide)]
  · refine hsigned true _ ?_
    rw [List.dropWhile_cons_of_neg (by decide)]
    rfl

/-- The position is read as it was written. -/
theorem atoi64_i64tostr (n : Int64) : atoi64 (i64tostr n) = n := by
  have hlow := Int64.le_toInt n
  have hhigh := Int64.toInt_lt n
  have hascii : ∀ c ∈ Nat.toDigits 10 n.toInt.natAbs, 0 < c.toNat ∧ c.toNat < 128 := by
    intro c hc
    have hbounds := isDigit_bounds (Nat.isDigit_of_mem_toDigits (by decide) (by decide) hc)
    omega
  have hvalue : (strtol (bytesText (i64tostr n))).1 = n.toInt := by
    unfold i64tostr
    split
    · rw [bytesText_map,(strtol_toDigits _).2]
      · omega
      · intro c hc
        rcases List.mem_cons.mp hc with rfl | hc
        · decide
        · exact hascii c hc
    · rw [bytesText_map hascii,(strtol_toDigits _).1]
      omega
  unfold atoi64
  rw [hvalue,min_eq_right (by omega),max_eq_right hlow,Int64.ofInt_toInt]

end Numbers

namespace MapValue

theorem filter_split {l : List (List UInt8 × List UInt8)} {key : List UInt8}
    (hsorted : l.Pairwise fun a b => a.1 < b.1) (hnot : ∀ item ∈ l, item.1 ≠ key) :
    (l.filter fun item => item.1 < key) ++ (l.filter fun item => key < item.1) = l := by
  induction l with
  | nil => rfl
  | cons item l ih =>
    obtain ⟨hfirst,hrest⟩ := List.pairwise_cons.mp hsorted
    have hih := ih hrest fun other hother => hnot other (List.mem_cons_of_mem _ hother)
    by_cases hlow : item.1 < key
    · have hhigh : ¬key < item.1 := List.lt_asymm hlow
      rw [List.filter_cons_of_pos (by simpa using hlow),
        List.filter_cons_of_neg (by simpa using hhigh),List.cons_append,hih]
    · have hhigh : key < item.1 := by
        by_contra hnothigh
        exact hnot item List.mem_cons_self (List.le_antisymm hnothigh hlow)
      have hall : ∀ other ∈ item :: l, key < other.1 := by
        intro other hother
        rcases List.mem_cons.mp hother with rfl | hother
        · exact hhigh
        · exact List.lt_trans hhigh (hfirst other hother)
      have hnone : ((item :: l).filter fun item => item.1 < key) = [] :=
        List.filter_eq_nil_iff.mpr fun other hother => by
          simpa using List.lt_asymm (hall other hother)
      have hsame : ((item :: l).filter fun item => key < item.1) = item :: l :=
        List.filter_eq_self.mpr fun other hother => by simpa using hall other hother
      rw [hnone,hsame,List.nil_append]

variable {m : MapValue} {key value : List UInt8}

theorem count_eq_zero : m.count key = 0 ↔ ∀ item ∈ m.entries, item.1 ≠ key := by
  unfold count
  rw [List.countP_eq_zero]
  simp

@[simp] theorem find_set : (m.set key value).find key = some value := by
  have hnone : (m.entries.filter fun item => item.1 < key).find?
      (fun item => item.1 == key) = none := by
    rw [List.find?_eq_none]
    intro item hitem
    have hlow : item.1 < key := by simpa using (List.mem_filter.mp hitem).2
    rw [beq_iff_eq]
    intro heq
    rw [heq] at hlow
    exact List.lt_irrefl key hlow
  unfold find set
  rw [List.find?_append,hnone]
  simp

theorem erase_self (h : m.count key = 0) : m.erase key = m := by
  apply MapValue.ext
  exact List.filter_eq_self.mpr fun item hitem =>
    bne_iff_ne.mpr (count_eq_zero.mp h item hitem)

theorem erase_set (h : m.count key = 0) : (m.set key value).erase key = m := by
  have hnot := count_eq_zero.mp h
  apply MapValue.ext
  unfold set erase
  simp only
  rw [List.filter_append,List.filter_cons_of_neg (by simp)]
  have hkeep (p : List UInt8 × List UInt8 → Bool) :
      (m.entries.filter p).filter (fun item => item.1 != key) = m.entries.filter p :=
    List.filter_eq_self.mpr fun item hitem =>
      bne_iff_ne.mpr (hnot item (List.mem_filter.mp hitem).1)
  rw [hkeep,hkeep,filter_split m.sorted hnot]

/-- An entry behind all others. -/
theorem insert_last (h : ∀ item ∈ m.entries, item.1 < key) :
    (m.insert (key,value)).entries = m.entries ++ [(key,value)] := by
  have hcount : m.count key = 0 := count_eq_zero.mpr fun item hitem heq => by
    have hlow := h item hitem
    rw [heq] at hlow
    exact List.lt_irrefl key hlow
  have hsame : (m.entries.filter fun item => item.1 < key) = m.entries :=
    List.filter_eq_self.mpr fun item hitem => by simpa using h item hitem
  have hnone : (m.entries.filter fun item => key < item.1) = [] :=
    List.filter_eq_nil_iff.mpr fun item hitem => by simpa using List.lt_asymm (h item hitem)
  unfold insert
  rw [if_pos hcount]
  unfold set
  simp only [hsame,hnone]

theorem length_serialize (m : MapValue) : m.serialize.length = m.getSerializeSize := by
  have hitems (l : List (List UInt8 × List UInt8)) : (l.flatMap serializeItem).length =
      (l.map fun item => getSizeOfCompactSize item.1.length+item.1.length+
        (getSizeOfCompactSize item.2.length+item.2.length)).sum := by
    induction l with
    | nil => rfl
    | cons item l ih =>
      rw [List.flatMap_cons,List.length_append,ih,List.map_cons,List.sum_cons]
      unfold serializeItem
      rw [List.length_append,length_serializeBytes,length_serializeBytes]
  unfold serialize getSerializeSize
  rw [List.length_append,length_writeCompactSize,hitems]

end MapValue

theorem reads_unserializeString {str : List UInt8} (h : str.length ≤ MAX_SIZE) :
    Reads unserializeString (serializeBytes str) str :=
  (reads_readCompactSize h).bind ((Reads.reserve _).after (Reads.take str))

namespace MapValue

/-- Items that go behind the map come back in their order. -/
theorem reads_readItems {l : List (List UInt8 × List UInt8)} {m m' : MapValue}
    (hm' : m'.entries = m.entries ++ l)
    (hsizes : ∀ item ∈ l, item.1.length ≤ MAX_SIZE ∧ item.2.length ≤ MAX_SIZE) :
    Reads (readItems l.length m) (l.flatMap serializeItem) m' := by
  induction l generalizing m with
  | nil =>
    rw [List.append_nil] at hm'
    rw [MapValue.ext hm']
    exact Reads.pure m
  | cons item l ih =>
    obtain ⟨hkey,hvalue⟩ := hsizes item List.mem_cons_self
    have hsorted := m'.sorted
    rw [hm',List.pairwise_append] at hsorted
    have hlast : (m.insert (item.1,item.2)).entries = m.entries ++ [(item.1,item.2)] :=
      insert_last fun other hother => hsorted.2.2 other hother item List.mem_cons_self
    have hrest := ih (m := m.insert (item.1,item.2)) (by rw [hlast,hm']; simp)
      fun other hother => hsizes other (List.mem_cons_of_mem _ hother)
    have hvalues : Reads (do
        let value ← unserializeString
        readItems l.length (m.insert (item.1,value)))
        (serializeBytes item.2 ++ l.flatMap serializeItem) m' :=
      (reads_unserializeString hvalue).bind hrest
    rw [List.flatMap_cons]
    unfold serializeItem
    rw [List.append_assoc]
    exact Reads.countRound.after ((reads_unserializeString hkey).bind hvalues)

theorem length_le_serialize {m : MapValue} {item : List UInt8 × List UInt8}
    (h : item ∈ m.entries) :
    item.1.length ≤ m.serialize.length ∧ item.2.length ≤ m.serialize.length := by
  have hle := List.le_sum_of_mem (List.mem_map_of_mem (f := fun item =>
    getSizeOfCompactSize item.1.length+item.1.length+
      (getSizeOfCompactSize item.2.length+item.2.length)) h)
  rw [length_serialize]
  unfold getSerializeSize
  omega

theorem length_entries_le (m : MapValue) : m.entries.length ≤ m.serialize.length := by
  have hitems (l : List (List UInt8 × List UInt8)) : l.length ≤ (l.map fun item =>
      getSizeOfCompactSize item.1.length+item.1.length+
        (getSizeOfCompactSize item.2.length+item.2.length)).sum := by
    induction l with
    | nil => exact Nat.le_refl 0
    | cons item l ih =>
      have hpos := getSizeOfCompactSize_pos item.1.length
      rw [List.map_cons,List.sum_cons,List.length_cons]
      omega
  have hle := hitems m.entries
  rw [length_serialize]
  unfold getSerializeSize
  omega

theorem reads_unserialize {m : MapValue} (h : m.serialize.length ≤ MAX_SIZE) :
    Reads unserialize m.serialize m := by
  have hsizes : ∀ item ∈ m.entries, item.1.length ≤ MAX_SIZE ∧ item.2.length ≤ MAX_SIZE := by
    intro item hitem
    have hle := length_le_serialize hitem
    omega
  have hcount := m.length_entries_le
  exact (reads_readCompactSize (by omega)).bind
    (reads_readItems (m := .empty) (List.nil_append _).symm hsizes)

end MapValue

section Position
variable {n : Int64} {m : MapValue}

theorem readOrderPos_writeOrderPos (h : m.count orderKey = 0) :
    readOrderPos (writeOrderPos n m) = n := by
  unfold writeOrderPos
  split
  · rename_i hnone
    have hfind : m.find orderKey = none := by
      unfold MapValue.find
      rw [Option.map_eq_none_iff,List.find?_eq_none]
      intro item hitem
      simpa using MapValue.count_eq_zero.mp h item hitem
    unfold readOrderPos
    rw [hfind,hnone]
  · unfold readOrderPos
    rw [MapValue.find_set]
    exact atoi64_i64tostr n

theorem erase_writeOrderPos (h : m.count orderKey = 0) :
    (writeOrderPos n m).erase orderKey = m := by
  unfold writeOrderPos
  split
  · exact MapValue.erase_self h
  · exact MapValue.erase_set h

end Position

theorem adaptExcept_eq_ok {ε ε' α : Type} {f : ε → ε'} {r : Reader ε α} {s s' : Stream} {a : α} :
    (EStateM.adaptExcept f r : Reader ε' α) s = .ok a s' ↔ r s = .ok a s' := by
  unfold EStateM.adaptExcept
  cases r s <;> simp

theorem reads_readLimitedString {limit : Nat} {v : List UInt8} (h : v.length ≤ limit)
    (hmax : v.length ≤ MAX_SIZE) : Reads (readLimitedString limit) (serializeBytes v) v := by
  refine Reads.bind ((reads_readCompactSize hmax).adaptExcept _) ?_
  rw [if_neg (Nat.not_lt.mpr h)]
  exact (Reads.reserve _).after (Reads.take v)

theorem readLimitedString_eq_ok {limit : Nat} {v : List UInt8} {s s' : Stream}
    (h : readLimitedString limit s = .ok v s') :
    v.length ≤ limit ∧ s.input = serializeBytes v ++ s'.input := by
  obtain ⟨size,s₁,hsize,h⟩ := bind_eq_ok.mp h
  obtain ⟨-,hinput⟩ := readCompactSize_eq_ok (adaptExcept_eq_ok.mp hsize)
  split at h
  · exact absurd h throw_ne_ok
  · rename_i hlimit
    obtain ⟨⟨⟩,s₂,hreserve,h⟩ := bind_eq_ok.mp h
    obtain ⟨hlen,hrest,-⟩ := take_eq_ok.mp h
    have hsame : s₂.input = s₁.input := by
      cases hreserve
      rfl
    rw [hinput,← hsame,hrest]
    unfold serializeBytes
    rw [hlen,List.append_assoc]
    exact ⟨Nat.le_of_not_lt hlimit,rfl⟩

namespace CAccountingEntry
variable {e : CAccountingEntry} {fGetHash : Bool} {nVersion : Int32}

theorem length_appendedComment (e : CAccountingEntry) :
    (e.appendedComment (writeOrderPos e.nOrderPos e.mapValue)).length =
      e.strComment.length+e.appendedSize := by
  unfold appendedComment appendedSize
  cases hempty : (writeOrderPos e.nOrderPos e.mapValue).isEmpty && e.ssExtra.isEmpty with
  | true => simp [hempty]
  | false =>
    simp only [hempty,Bool.not_false,if_true,Bool.false_eq_true,if_false,List.length_append,
      List.length_cons,MapValue.length_serialize]
    omega

/-- The separator, if there is one, ends the comment. -/
theorem appendedComment_cases (hnul : 0 ∉ e.strComment) (m : MapValue) :
    (e.appendedComment m = e.strComment ∧ m = .empty ∧ e.ssExtra = [] ∧
      (e.appendedComment m).findIdx? (· == 0) = none) ∨
    (e.appendedComment m = e.strComment ++ 0 :: (m.serialize ++ e.ssExtra) ∧
      (e.appendedComment m).findIdx? (· == 0) = some e.strComment.length) := by
  have hfirst : e.strComment.findIdx? (· == 0) = none := by
    rw [List.findIdx?_eq_none_iff]
    intro b hb
    rw [beq_eq_false_iff_ne]
    rintro rfl
    exact hnul hb
  unfold appendedComment
  cases hempty : m.isEmpty && e.ssExtra.isEmpty with
  | true =>
    have hboth := Bool.and_eq_true_iff.mp hempty
    exact .inl ⟨rfl,MapValue.ext (List.isEmpty_iff.mp hboth.1),List.isEmpty_iff.mp hboth.2,hfirst⟩
  | false =>
    refine .inr ⟨rfl,?_⟩
    simp only [Bool.not_false,if_true]
    rw [List.findIdx?_append,hfirst]
    simp [List.findIdx?_cons]

theorem eraseFrom_appendedComment (hnul : 0 ∉ e.strComment) (m : MapValue) :
    eraseFrom (e.appendedComment m) ((e.appendedComment m).findIdx? (· == 0)) =
      e.strComment := by
  rcases appendedComment_cases hnul m with ⟨hcomment,-,-,hnone⟩ | ⟨hcomment,hsome⟩
  · rw [hnone,hcomment]
    rfl
  · rw [hsome,hcomment]
    exact List.take_left

/-- Behind the separator stands what was put there. -/
theorem readBehind_appendedComment (hnul : 0 ∉ e.strComment) (m : MapValue)
    (hsize : (e.appendedComment m).length ≤ MAX_SIZE) (s : Stream) :
    readBehind (e.appendedComment m) [] ((e.appendedComment m).findIdx? (· == 0)) s =
      .ok (m,e.ssExtra) s := by
  rcases appendedComment_cases hnul m with ⟨-,hm,hextra,hnone⟩ | ⟨hcomment,hsome⟩
  · rw [hnone,hm,hextra]
    rfl
  · rw [hcomment,List.length_append,List.length_cons,List.length_append] at hsize
    have hdrop : (e.appendedComment m).drop (e.strComment.length+1) = m.serialize ++ e.ssExtra := by
      rw [hcomment,List.drop_append,List.drop_eq_nil_of_le (Nat.le_succ _),
        Nat.add_sub_cancel_left]
      rfl
    obtain ⟨s',hread,hrest⟩ := MapValue.reads_unserialize (m := m) (by omega)
      ⟨m.serialize ++ e.ssExtra,0,0⟩ e.ssExtra rfl
    rw [hsome]
    simp only [readBehind,hdrop,hread,hrest]
    rfl

theorem reads_readInt64 (n : Int64) : Reads readInt64 (writeInt 8 n.toInt) n := by
  have hfits : FitsInt 8 n.toInt := by
    have hlow := Int64.le_toInt n
    have hhigh := Int64.toInt_lt n
    constructor <;> omega
  have hread : Reads (do
      let n ← EStateM.adaptExcept EntryFailure.read (readInt 8)
      pure (Int64.ofInt n)) (writeInt 8 n.toInt) (Int64.ofInt n.toInt) :=
    ((reads_readInt hfits).adaptExcept _).map (Reads.pure _)
  rwa [Int64.ofInt_toInt] at hread

/-- Writing leaves the entry as it is. -/
theorem serialize_snd (hnul : 0 ∉ e.strComment) (hkey : e.mapValue.count orderKey = 0) :
    (e.serialize fGetHash nVersion).2 = e := by
  unfold serialize
  simp only [eraseFrom_appendedComment hnul,erase_writeOrderPos hkey]

theorem reads_readVersion (fGetHash : Bool) (nVersion : Int32) :
    Reads (readVersion fGetHash) (writeVersion fGetHash nVersion)
      (if fGetHash then 0 else nVersion.toInt) := by
  cases fGetHash with
  | true => exact Reads.pure 0
  | false =>
    have hfits : FitsInt 4 nVersion.toInt := by
      have hlow := Int32.le_toInt nVersion
      have hhigh := Int32.toInt_lt nVersion
      constructor <;> omega
    exact (reads_readInt hfits).adaptExcept _

theorem reads_unserialize (hnul : 0 ∉ e.strComment) (hkey : e.mapValue.count orderKey = 0)
    (hother : e.strOtherAccount.length ≤ STRING_LIMIT)
    (hcomment : e.strComment.length+e.appendedSize ≤ STRING_LIMIT) :
    Reads (null.unserialize fGetHash) (e.serialize fGetHash nVersion).1 e := by
  have hmax : STRING_LIMIT ≤ MAX_SIZE := by decide
  rw [← length_appendedComment] at hcomment
  have hbehind := readBehind_appendedComment hnul (writeOrderPos e.nOrderPos e.mapValue)
    (Nat.le_trans hcomment hmax)
  have hmade : Reads (do
      let (mapValue,ssExtra) ← readBehind (e.appendedComment
        (writeOrderPos e.nOrderPos e.mapValue)) null.ssExtra ((e.appendedComment
          (writeOrderPos e.nOrderPos e.mapValue)).findIdx? (· == 0))
      pure (⟨e.nCreditDebit,e.nTime,e.strOtherAccount,eraseFrom (e.appendedComment
        (writeOrderPos e.nOrderPos e.mapValue)) ((e.appendedComment
          (writeOrderPos e.nOrderPos e.mapValue)).findIdx? (· == 0)),mapValue.erase orderKey,
            readOrderPos mapValue,ssExtra⟩ : CAccountingEntry)) [] e := by
    intro s rest hs
    refine ⟨s,bind_eq_ok.mpr ⟨_,s,hbehind s,?_⟩,hs⟩
    simp only [eraseFrom_appendedComment hnul,erase_writeOrderPos hkey,
      readOrderPos_writeOrderPos hkey]
    rfl
  unfold unserialize serialize
  refine (reads_readVersion fGetHash nVersion).bind ?_
  refine (reads_readInt64 _).bind ?_
  refine (reads_readInt64 _).bind ?_
  refine (reads_readLimitedString hother (by omega)).bind ?_
  exact (reads_readLimitedString hcomment (by omega)).map hmade

theorem length_writeInt (n : Nat) (x : Int) : (writeInt n x).length = n := littleEndian_length n _

theorem readInt64_eq_ok {s s' : Stream} {n : Int64} (h : readInt64 s = .ok n s') :
    ∃ bytes, bytes.length = 8 ∧ s.input = bytes ++ s'.input := by
  obtain ⟨x,s₁,hx,h⟩ := bind_eq_ok.mp h
  obtain ⟨-,rfl⟩ := pure_eq_ok.mp h
  exact ⟨_,length_writeInt 8 x,inverts_readInt 8 s x s₁ (adaptExcept_eq_ok.mp hx)⟩

theorem readVersion_eq_ok {s s' : Stream} {x : Int}
    (h : readVersion fGetHash s = .ok x s') (nVersion : Int32) :
    s.input.length = (writeVersion fGetHash nVersion).length+s'.input.length := by
  unfold readVersion at h
  unfold writeVersion
  cases fGetHash with
  | true =>
    obtain ⟨-,rfl⟩ := pure_eq_ok.mp h
    simp
  | false =>
    rw [inverts_readInt 4 s x s' (adaptExcept_eq_ok.mp h),List.length_append,length_writeInt]
    simp [length_writeInt]

theorem readBehind_eq_ok {strComment ssExtra : List UInt8} {nSepPos : Option Nat}
    {r : MapValue × List UInt8} {s s' : Stream}
    (h : readBehind strComment ssExtra nSepPos s = .ok r s') : s' = s := by
  cases nSepPos with
  | none => exact (pure_eq_ok.mp h).2.symm
  | some n =>
    cases hread : MapValue.unserialize ⟨strComment.drop (n+1),0,0⟩ with
    | ok mapValue ss =>
      simp only [readBehind,hread] at h
      exact (pure_eq_ok.mp h).2.symm
    | error failure ss =>
      simp only [readBehind,hread] at h
      exact absurd h throw_ne_ok

/-- What comes back was short enough to be read. -/
theorem sizes_of_reads
    (h : Reads (null.unserialize fGetHash) (e.serialize fGetHash nVersion).1 e) :
    e.strOtherAccount.length ≤ STRING_LIMIT ∧
      e.strComment.length+e.appendedSize ≤ STRING_LIMIT := by
  obtain ⟨s',hread,hrest⟩ := h ⟨(e.serialize fGetHash nVersion).1,0,0⟩ []
    (List.append_nil _).symm
  obtain ⟨_,s₁,hversion,hread⟩ := bind_eq_ok.mp hread
  obtain ⟨_,s₂,hcredit,hread⟩ := bind_eq_ok.mp hread
  obtain ⟨_,s₃,htime,hread⟩ := bind_eq_ok.mp hread
  obtain ⟨other,s₄,hother,hread⟩ := bind_eq_ok.mp hread
  obtain ⟨comment,s₅,hcomment,hread⟩ := bind_eq_ok.mp hread
  obtain ⟨_,s₆,hbehind,hread⟩ := bind_eq_ok.mp hread
  obtain ⟨hentry,hend⟩ := pure_eq_ok.mp hread
  obtain ⟨hotherLimit,hotherInput⟩ := readLimitedString_eq_ok hother
  obtain ⟨hcommentLimit,hcommentInput⟩ := readLimitedString_eq_ok hcomment
  obtain ⟨creditBytes,hcreditSize,hcreditInput⟩ := readInt64_eq_ok hcredit
  obtain ⟨timeBytes,htimeSize,htimeInput⟩ := readInt64_eq_ok htime
  have hversionSize := readVersion_eq_ok hversion nVersion
  have hsame : other = e.strOtherAccount := congrArg CAccountingEntry.strOtherAccount hentry
  have hstored := length_appendedComment e
  refine ⟨hsame ▸ hotherLimit,?_⟩
  rw [← hstored]
  rw [← hend,readBehind_eq_ok hbehind] at hrest
  unfold serialize at hversionSize
  rw [hcreditInput,htimeInput,hotherInput,hcommentInput,hrest,hsame] at hversionSize
  simp only [List.length_append,length_writeInt,length_serializeBytes,List.length_nil,
    hcreditSize,htimeSize] at hversionSize
  have hlimit : STRING_LIMIT = 65536 := rfl
  unfold getSizeOfCompactSize at hversionSize
  split_ifs at hversionSize <;> omega

/-- An entry without NUL in its comment and without the key of the position in its map comes
back as it was, and stays as it was, exactly where its two strings are short enough to be
read. -/
theorem roundTrip_iff (hnul : 0 ∉ e.strComment) (hkey : e.mapValue.count orderKey = 0)
    (fGetHash : Bool) (nVersion : Int32) :
    ((e.serialize fGetHash nVersion).2 = e ∧
      Reads (null.unserialize fGetHash) (e.serialize fGetHash nVersion).1 e) ↔
    e.strOtherAccount.length ≤ STRING_LIMIT ∧
      e.strComment.length+e.appendedSize ≤ STRING_LIMIT :=
  ⟨fun h => sizes_of_reads h.2,
    fun h => ⟨serialize_snd hnul hkey,reads_unserialize hnul hkey h.1 h.2⟩⟩

/-- An entry with a comment, two map entries, extra bytes and a position. -/
def smallEntry : CAccountingEntry where
  nCreditDebit := -5
  nTime := 1333333333
  strOtherAccount := [98]
  strComment := [104,105]
  mapValue := (MapValue.empty.set [120] [49]).set [97] []
  nOrderPos := 12
  ssExtra := [0,7]

theorem smallEntry_roundTrip :
    (smallEntry.serialize false 60000).2 = smallEntry ∧
      Reads (null.unserialize false) (smallEntry.serialize false 60000).1 smallEntry :=
  (roundTrip_iff (by decide) (by decide) false 60000).mpr ⟨by decide,by decide +kernel⟩

/-- A comment as long as the limit, in an entry with a position. -/
def longEntry : CAccountingEntry :=
  { null with strComment := List.replicate 65536 120, nOrderPos := 1 }

/-- It is written, and cannot be read. -/
theorem longEntry_unreadable :
    (0 ∉ longEntry.strComment ∧ longEntry.mapValue.count orderKey = 0) ∧
      ¬Reads (null.unserialize false) (longEntry.serialize false 60000).1 longEntry := by
  refine ⟨⟨?_,by decide⟩,fun h => ?_⟩
  · intro hnul
    exact absurd (List.eq_of_mem_replicate hnul) (by decide)
  · have hsize := (sizes_of_reads h).2
    have hcomment : longEntry.strComment.length = 65536 := List.length_replicate
    have happended : longEntry.appendedSize = 6 := by decide +kernel
    rw [hcomment,happended] at hsize
    exact absurd hsize (by decide)

end CAccountingEntry

end Anoncoin
