import Anoncoin.Block
import Anoncoin.Lib.Effects
import Anoncoin.Lib.Ring
import Anoncoin.Lib.Runs

/-!
The reader of block files (`CBufferedFile` of streams.h): a ring buffer with a position in the
file, a position of its own behind it, and bytes that are kept for rewinding.
-/

set_option autoImplicit false

namespace Anoncoin
open Lib

/-- The file that is read: its bytes, where it stands, and how many bytes each call of `fread` gets
at most; none is a failed read. -/
structure CFile where
  bytes : List UInt8
  pos : Nat
  given : Nat → Nat
  calls : Nat

namespace CFile

def fread (src : CFile) (readNow : Nat) : List UInt8 × CFile :=
  let bytes := (src.bytes.drop src.pos).take (min (src.given src.calls) readNow)
  (bytes,{ src with pos := src.pos+bytes.length, calls := src.calls+1 })

def feof (src : CFile) : Bool := src.pos == src.bytes.length

end CFile

structure CBufferedFile where
  src : CFile
  nSrcPos : Uint64
  nReadPos : Uint64
  nReadLimit : Uint64
  nRewind : Uint64
  vchBuf : List UInt8

/-- An exception, an index outside of the buffer, or a loop that goes on. -/
inductive BufferedFileError where
  | failure (what : String)
  | outOfBounds
  | noReturn
  deriving DecidableEq, Repr

abbrev Buffered := EStateM BufferedFileError CBufferedFile

inductive BufferCall where
  | read (nSize : Uint64)
  | setPos (nPos : Uint64)
  | findByte (ch : UInt8)
  | setLimit (nPos : Uint64)
  deriving DecidableEq, Repr

inductive BufferReply where
  | data (pch : List UInt8)
  | found
  | answer (fOk : Bool)
  deriving DecidableEq, Repr

namespace CBufferedFile

def create (fileIn : CFile) (nBufSize nRewindIn : Uint64) : CBufferedFile :=
  ⟨fileIn,0,0,BitVec.allOnes 64,nRewindIn,List.replicate nBufSize.toNat 0⟩

def size (f : CBufferedFile) : Uint64 := BitVec.ofNat 64 f.vchBuf.length

/-- `unsigned int pos = n % vchBuf.size()`. -/
def index (f : CBufferedFile) (n : Uint64) : Uint32 := (n%f.size).setWidth 32

def endOfFile : BufferedFileError := .failure "CBufferedFile::Fill : end of file"

def freadFailed : BufferedFileError := .failure "CBufferedFile::Fill : fread failed"

/-- How many bytes `Fill` asks for. -/
def readNow (f : CBufferedFile) (pos : Uint32) : Uint32 :=
  let readNow := (f.size-pos.setWidth 64).setWidth 32
  let nAvail := (f.size-(f.nSrcPos-f.nReadPos)-f.nRewind).setWidth 32
  if nAvail < readNow then nAvail else readNow

def fill : Buffered Bool := fun f =>
  let pos := f.index f.nSrcPos
  let readNow := f.readNow pos
  if readNow = 0 then .ok false f
  else if f.vchBuf.length < pos.toNat+readNow.toNat then .error .outOfBounds f
  else
    let (bytes,src) := f.src.fread readNow.toNat
    if bytes.length = 0 then
      .error (if src.feof then endOfFile else freadFailed) { f with src := src }
    else .ok true { f with
      src := src
      nSrcPos := f.nSrcPos+BitVec.ofNat 64 bytes.length
      vchBuf := overwrite f.vchBuf pos.toNat bytes }

/-- `if (nReadPos == nSrcPos) Fill();` -/
def fillIfRead : Buffered Unit := fun f =>
  if f.nReadPos = f.nSrcPos then (do let _ ← fill; pure ()) f else .ok () f

/-- How many bytes a round of `read` copies: up to the end of the buffer and of what was read
from the file. -/
def copyNow (f : CBufferedFile) (pos : Uint32) (nSize : Uint64) : Uint64 :=
  let nNow := nSize
  let nNow := if f.size < nNow+pos.setWidth 64 then f.size-pos.setWidth 64 else nNow
  if f.nSrcPos < nNow+f.nReadPos then f.nSrcPos-f.nReadPos else nNow

/-- The rest of a round of `read`. -/
def copyOut (nSize : Uint64) : Buffered (List UInt8) := fun f =>
  let pos := f.index f.nReadPos
  let nNow := f.copyNow pos nSize
  if f.vchBuf.length < pos.toNat+nNow.toNat then .error .outOfBounds f
  else .ok ((f.vchBuf.drop pos.toNat).take nNow.toNat) { f with nReadPos := f.nReadPos+nNow }

def readLoop : Nat → Uint64 → Buffered (List UInt8)
  | 0,_ => throw .noReturn
  | fuel+1,nSize =>
    if nSize = 0 then pure []
    else do
      fillIfRead
      let pch ← copyOut nSize
      let rest ← readLoop fuel (nSize-BitVec.ofNat 64 pch.length)
      pure (pch ++ rest)

def read (fuel : Nat) (nSize : Uint64) : Buffered (List UInt8) := fun f =>
  if f.nReadLimit < nSize+f.nReadPos then .error (.failure "Read attempted past buffer limit") f
  else if f.size < nSize+f.nRewind then .error (.failure "Read larger than buffer size") f
  else readLoop fuel nSize f

def setPos (nPos : Uint64) : Buffered Bool := fun f =>
  if nPos+f.nRewind < f.nSrcPos then .ok false { f with nReadPos := f.nSrcPos-f.nRewind }
  else if f.nSrcPos < nPos then .ok false { f with nReadPos := f.nSrcPos }
  else .ok true { f with nReadPos := nPos }

def setLimit (nPos : Uint64) : Buffered Bool := fun f =>
  if nPos < f.nReadPos then .ok false f else .ok true { f with nReadLimit := nPos }

/-- `vchBuf[nReadPos % vchBuf.size()] == ch`, and the position one further where it is not. -/
def passByte (ch : UInt8) : Buffered Bool := fun f =>
  match f.vchBuf[(f.nReadPos%f.size).toNat]? with
  | none => .error .outOfBounds f
  | some c => if c = ch then .ok true f else .ok false { f with nReadPos := f.nReadPos+1 }

def findByte : Nat → UInt8 → Buffered Unit
  | 0,_ => throw .noReturn
  | fuel+1,ch => do
    fillIfRead
    if ← passByte ch then pure () else findByte fuel ch

def call (fuel : Nat) : BufferCall → Buffered BufferReply
  | .read nSize => do return .data (← read fuel nSize)
  | .setPos nPos => do return .answer (← setPos nPos)
  | .findByte ch => do
    findByte fuel ch
    return .found
  | .setLimit nPos => do return .answer (← setLimit nPos)

end CBufferedFile

/-- A file that is read without a buffer, with its position and its limit. -/
structure PlainFile where
  bytes : List UInt8
  nPos : Nat
  nLimit : Nat

namespace PlainFile

/-- Reading on ends where the file does or where `fread` fails, as the exception says. -/
def Stops (p : PlainFile) (given : Nat → Nat) (e : BufferedFileError) (p' : PlainFile) : Prop :=
  ∃ k, p' = { p with nPos := p.nPos+k } ∧
    (e = CBufferedFile.endOfFile ∧ p'.nPos = p.bytes.length ∨
      e = CBufferedFile.freadFailed ∧ p'.nPos < p.bytes.length ∧ ∃ n, given n = 0)

/-- What a plain file answers when reads of more than `nMost` bytes are refused. -/
def Answers (p : PlainFile) (given : Nat → Nat) (nMost : Nat) :
    BufferCall → Except BufferedFileError BufferReply → PlainFile → Prop
  | .read nSize,.ok (.data pch),p' => p.nPos+nSize.toNat ≤ p.nLimit ∧
      pch = (p.bytes.drop p.nPos).take nSize.toNat ∧ pch.length = nSize.toNat ∧
      p' = { p with nPos := p.nPos+nSize.toNat }
  | .read nSize,.error e,p' =>
      e = .failure "Read attempted past buffer limit" ∧ p.nLimit < p.nPos+nSize.toNat ∧ p' = p ∨
      e = .failure "Read larger than buffer size" ∧ nMost < nSize.toNat ∧ p' = p ∨
      p.Stops given e p' ∧ p'.nPos < p.nPos+nSize.toNat
  | .findByte ch,.ok .found,p' => ∃ k, p' = { p with nPos := p.nPos+k } ∧
      p.bytes[p.nPos+k]? = some ch ∧ ch ∉ (p.bytes.drop p.nPos).take k
  | .findByte ch,.error e,p' => p.Stops given e p' ∧
      ch ∉ (p.bytes.drop p.nPos).take (p'.nPos-p.nPos)
  | .setPos nPos,.ok (.answer fOk),p' => p'.nPos ≤ p.bytes.length ∧
      p' = { p with nPos := if fOk then nPos.toNat else p'.nPos }
  | .setLimit nPos,.ok (.answer fOk),p' => fOk = decide (p.nPos ≤ nPos.toNat) ∧
      p' = { p with nLimit := if fOk then nPos.toNat else p.nLimit }
  | _,_,_ => False

end PlainFile

/-- A file, the pattern in which `fread` gives its bytes, and the sizes of a buffer over it. The
buffer is small enough for the `unsigned int` variables, and no position beside it overflows. -/
structure ReaderSetup where
  bytes : List UInt8
  given : Nat → Nat
  nBufSize : Uint64
  nRewindIn : Uint64
  rewind_lt : nRewindIn < nBufSize
  size_lt : nBufSize.toNat < 2^32
  bytes_lt : bytes.length+nBufSize.toNat < 2^64

section
variable {src : CFile} {readNow : Nat}

theorem CFile.fread_eq (h : src.pos ≤ src.bytes.length) :
    ∃ k, src.fread readNow = ((src.bytes.drop src.pos).take k,
        { src with pos := src.pos+k, calls := src.calls+1 }) ∧
      ((src.bytes.drop src.pos).take k).length = k ∧ k ≤ readNow ∧ src.pos+k ≤ src.bytes.length ∧
      (k = 0 → 0 < readNow → src.pos = src.bytes.length ∨ src.given src.calls = 0) := by
  refine ⟨min (min (src.given src.calls) readNow) (src.bytes.length-src.pos),?_,?_,by omega,by omega,
    by omega⟩
  · simp only [fread,List.length_take,List.length_drop,Prod.mk.injEq,and_true]
    rw [List.take_eq_take_iff,List.length_drop]
    omega
  · rw [List.length_take,List.length_drop]
    omega

end

namespace CBufferedFile

/-- The file that the reader stands for. -/
def plain (f : CBufferedFile) : PlainFile := ⟨f.src.bytes,f.nReadPos.toNat,f.nReadLimit.toNat⟩

/-- The last bytes that came from the file are in the buffer, and the reader is at one of them or
behind them. -/
structure Reads (setup : ReaderSetup) (f : CBufferedFile) : Prop where
  bytes : f.src.bytes = setup.bytes
  given : f.src.given = setup.given
  size : f.vchBuf.length = setup.nBufSize.toNat
  rewind : f.nRewind = setup.nRewindIn
  pos : f.src.pos = f.nSrcPos.toNat
  within : f.nSrcPos.toNat ≤ setup.bytes.length
  behind : f.nReadPos.toNat ≤ f.nSrcPos.toNat
  held : f.nSrcPos.toNat ≤ f.nReadPos.toNat+f.vchBuf.length
  ring : RingHolds f.vchBuf setup.bytes f.nSrcPos.toNat

/-- What every operation keeps: the reader goes on with the file it has. -/
structure Continues (setup : ReaderSetup) (f f' : CBufferedFile) : Prop where
  reads : f'.Reads setup
  later : f.nSrcPos.toNat ≤ f'.nSrcPos.toNat

/-- As far as a plain file shows, only the position moves. -/
structure Moves (setup : ReaderSetup) (k : Nat) (f f' : CBufferedFile) : Prop
    extends Continues setup f f' where
  plain : f'.plain = { f.plain with nPos := f.plain.nPos+k }

section
variable {setup : ReaderSetup} {f f' f'' : CBufferedFile}

theorem Moves.refl (h : f.Reads setup) : Moves setup 0 f f := ⟨⟨h,le_rfl⟩,rfl⟩

theorem Moves.trans {k l : Nat} (h : Moves setup k f f') (h' : Moves setup l f' f'') :
    Moves setup (k+l) f f'' := by
  refine ⟨⟨h'.reads,h.later.trans h'.later⟩,?_⟩
  rw [h'.plain,h.plain,Nat.add_assoc]

namespace Reads

theorem nRewind_lt (h : f.Reads setup) : f.nRewind.toNat < f.vchBuf.length := by
  rw [h.rewind,h.size]
  exact setup.rewind_lt

theorem length_lt (h : f.Reads setup) : f.vchBuf.length < 2^32 := by
  rw [h.size]
  exact setup.size_lt

theorem bytes_lt (h : f.Reads setup) : setup.bytes.length+f.vchBuf.length < 2^64 := by
  rw [h.size]
  exact setup.bytes_lt

theorem toNat_size (h : f.Reads setup) : f.size.toNat = f.vchBuf.length := by
  have hlength := h.length_lt
  rw [CBufferedFile.size,BitVec.toNat_ofNat,Nat.mod_eq_of_lt (by omega)]

theorem mod_lt (h : f.Reads setup) (n : Nat) : n%f.vchBuf.length < f.vchBuf.length :=
  Nat.mod_lt _ (Nat.zero_lt_of_lt h.nRewind_lt)

theorem toNat_index (h : f.Reads setup) (n : Uint64) :
    (f.index n).toNat = n.toNat%f.vchBuf.length := by
  have hlength := h.length_lt
  have hmod := h.mod_lt n.toNat
  rw [index,BitVec.toNat_setWidth,BitVec.toNat_umod,h.toNat_size,Nat.mod_eq_of_lt (by omega)]

/-- When everything before has been read, `Fill` asks for what fits before the end of the buffer
and before the bytes that are kept for rewinding. -/
theorem toNat_readNow (h : f.Reads setup) (hread : f.nReadPos = f.nSrcPos) :
    (f.readNow (f.index f.nSrcPos)).toNat =
      min (f.vchBuf.length-f.nSrcPos.toNat%f.vchBuf.length) (f.vchBuf.length-f.nRewind.toNat) := by
  have hsize := h.toNat_size
  have hlength := h.length_lt
  have hrewind := h.nRewind_lt
  have hmod := h.mod_lt f.nSrcPos.toNat
  have hindex := h.toNat_index f.nSrcPos
  have hnow : ((f.size-(f.index f.nSrcPos).setWidth 64).setWidth 32 : Uint32).toNat =
      f.vchBuf.length-f.nSrcPos.toNat%f.vchBuf.length := by
    rw [BitVec.toNat_setWidth,BitVec.toNat_sub,BitVec.toNat_setWidth,hindex,hsize]
    omega
  have havail : ((f.size-(f.nSrcPos-f.nReadPos)-f.nRewind).setWidth 32 : Uint32).toNat =
      f.vchBuf.length-f.nRewind.toNat := by
    rw [hread,BitVec.sub_self,BitVec.sub_zero,BitVec.toNat_setWidth,BitVec.toNat_sub,hsize]
    omega
  simp only [readNow,BitVec.lt_def,hnow,havail]
  split
  · rw [havail]
    omega
  · rw [hnow]
    omega

end Reads

/-- Nothing more comes from the file: it ends here, or `fread` failed. -/
def Stuck (setup : ReaderSetup) (f : CBufferedFile) (e : BufferedFileError) : Prop :=
  e = endOfFile ∧ f.nReadPos.toNat = setup.bytes.length ∨
    e = freadFailed ∧ f.nReadPos.toNat < setup.bytes.length ∧ ∃ n, setup.given n = 0

theorem fill_spec (h : f.Reads setup) (hread : f.nReadPos = f.nSrcPos) :
    Ends (fun e f' => Moves setup 0 f f' ∧ f'.Stuck setup e) fill f
      fun _ f' => Moves setup 0 f f' ∧ f'.nReadPos.toNat < f'.nSrcPos.toNat := by
  have hpos := h.toNat_index f.nSrcPos
  have hnow := h.toNat_readNow hread
  have hmod := h.mod_lt f.nSrcPos.toNat
  have hrewind := h.nRewind_lt
  have hbytes := h.bytes_lt
  have hwithin := h.within
  simp only [Ends,fill]
  generalize f.readNow (f.index f.nSrcPos) = readNow at hnow ⊢
  have hsome : readNow ≠ 0 := by
    intro hzero
    have hnone : readNow.toNat = 0 := by rw [hzero]; rfl
    omega
  obtain ⟨k,hfread,hlen,hk,hend,hzero⟩ := @CFile.fread_eq f.src readNow.toNat
    (by rw [h.pos,h.bytes]; exact hwithin)
  rw [if_neg hsome,if_neg (by omega),hfread]
  simp only [hlen]
  rw [h.pos,h.bytes] at hend hzero
  by_cases hk0 : k = 0
  · rw [if_pos hk0]
    subst hk0
    refine ⟨⟨⟨⟨h.bytes,h.given,h.size,h.rewind,?_,hwithin,h.behind,h.held,h.ring⟩,le_rfl⟩,rfl⟩,?_⟩
    · simp [h.pos]
    · have hfeof : CFile.feof { f.src with pos := f.src.pos+0, calls := f.src.calls+1 } =
          decide (f.nReadPos.toNat = setup.bytes.length) := by
        simp [CFile.feof,h.pos,h.bytes,hread,beq_eq_decide]
      rw [hfeof]
      by_cases hlast : f.nReadPos.toNat = setup.bytes.length
      · exact .inl ⟨by simp [hlast],hlast⟩
      · rw [hread] at hlast
        refine .inr ⟨by simp [hread,hlast],by rw [hread]; omega,f.src.calls,?_⟩
        rw [← h.given]
        exact (hzero rfl (by omega)).resolve_left hlast
  · rw [if_neg hk0]
    have hsum : (f.nSrcPos+BitVec.ofNat 64 k).toNat = f.nSrcPos.toNat+k := by
      rw [BitVec.toNat_add,BitVec.toNat_ofNat]
      omega
    rw [h.bytes,h.pos] at hlen
    have hring := h.ring.write (k := k) (by omega) rfl hlen
    have hlength := @length_overwrite _ f.vchBuf ((setup.bytes.drop f.nSrcPos.toNat).take k)
      (f.nSrcPos.toNat%f.vchBuf.length) (by omega)
    have hnext : Reads setup { f with
        src := { f.src with pos := f.src.pos+k, calls := f.src.calls+1 }
        nSrcPos := f.nSrcPos+BitVec.ofNat 64 k
        vchBuf := overwrite f.vchBuf (f.index f.nSrcPos).toNat
          ((f.src.bytes.drop f.src.pos).take k) } := by
      rw [hpos,h.bytes,h.pos]
      refine ⟨h.bytes,h.given,hlength.trans h.size,h.rewind,hsum.symm,?_,?_,?_,?_⟩
      · rw [hsum]
        exact hend
      · rw [hsum,hread]
        omega
      · rw [hsum,hread,hlength]
        omega
      · rw [hsum]
        exact hring
    refine ⟨⟨⟨hnext,?_⟩,rfl⟩,?_⟩
    · rw [hsum]
      omega
    · rw [hsum,hread]
      omega

theorem fillIfRead_spec (h : f.Reads setup) :
    Ends (fun e f' => Moves setup 0 f f' ∧ f'.Stuck setup e) fillIfRead f
      fun _ f' => Moves setup 0 f f' ∧ f'.nReadPos.toNat < f'.nSrcPos.toNat := by
  by_cases hread : f.nReadPos = f.nSrcPos
  · simp only [Ends,fillIfRead,if_pos hread]
    exact (fill_spec h hread).bind fun _ f' hpost => hpost
  · simp only [Ends,fillIfRead,if_neg hread]
    have hne : f.nReadPos.toNat ≠ f.nSrcPos.toNat := fun heq => hread (BitVec.eq_of_toNat_eq heq)
    exact ⟨.refl h,Nat.lt_of_le_of_ne h.behind hne⟩

/-- The reader may be anywhere in what the ring holds. -/
theorem Reads.moveTo (h : f.Reads setup) (n : Uint64) (hbehind : n.toNat ≤ f.nSrcPos.toNat)
    (hheld : f.nSrcPos.toNat ≤ n.toNat+f.vchBuf.length) :
    Continues setup f { f with nReadPos := n } :=
  ⟨⟨h.bytes,h.given,h.size,h.rewind,h.pos,h.within,hbehind,hheld,h.ring⟩,le_rfl⟩

theorem Reads.advance {nNow : Uint64} {k : Nat} (h : f.Reads setup) (hk : nNow.toNat = k)
    (hend : f.nReadPos.toNat+k ≤ f.nSrcPos.toNat) :
    Moves setup k f { f with nReadPos := f.nReadPos+nNow } := by
  have hbytes := h.bytes_lt
  have hwithin := h.within
  have hheld := h.held
  have hsum : (f.nReadPos+nNow).toNat = f.nReadPos.toNat+k := by
    rw [BitVec.toNat_add,hk]
    omega
  refine ⟨h.moveTo _ (by omega) (by omega),?_⟩
  simp only [CBufferedFile.plain,hsum]

theorem Reads.toNat_copyNow {nSize : Uint64} (h : f.Reads setup)
    (hmost : nSize.toNat ≤ f.vchBuf.length) :
    (f.copyNow (f.index f.nReadPos) nSize).toNat =
      min (min nSize.toNat (f.vchBuf.length-f.nReadPos.toNat%f.vchBuf.length))
        (f.nSrcPos.toNat-f.nReadPos.toNat) := by
  have hsize := h.toNat_size
  have hindex := h.toNat_index f.nReadPos
  have hmod := h.mod_lt f.nReadPos.toNat
  have hbytes := h.bytes_lt
  have hwithin := h.within
  have hlength := h.length_lt
  have hbehind := h.behind
  have hround : (if f.size < nSize+(f.index f.nReadPos).setWidth 64
      then f.size-(f.index f.nReadPos).setWidth 64 else nSize).toNat =
        min nSize.toNat (f.vchBuf.length-f.nReadPos.toNat%f.vchBuf.length) := by
    have hlt : f.size < nSize+(f.index f.nReadPos).setWidth 64 ↔
        f.vchBuf.length < nSize.toNat+f.nReadPos.toNat%f.vchBuf.length := by
      rw [BitVec.lt_def,BitVec.toNat_add,BitVec.toNat_setWidth,hindex,hsize]
      omega
    by_cases hend : f.size < nSize+(f.index f.nReadPos).setWidth 64
    · rw [if_pos hend,BitVec.toNat_sub,BitVec.toNat_setWidth,hindex,hsize]
      rw [hlt] at hend
      omega
    · rw [if_neg hend]
      rw [hlt] at hend
      omega
  simp only [copyNow]
  generalize (if f.size < nSize+(f.index f.nReadPos).setWidth 64
    then f.size-(f.index f.nReadPos).setWidth 64 else nSize) = nNow at hround ⊢
  have hlt : f.nSrcPos < nNow+f.nReadPos ↔ f.nSrcPos.toNat < nNow.toNat+f.nReadPos.toNat := by
    rw [BitVec.lt_def,BitVec.toNat_add]
    omega
  by_cases hend : f.nSrcPos < nNow+f.nReadPos
  · rw [if_pos hend,BitVec.toNat_sub]
    rw [hlt] at hend
    omega
  · rw [if_neg hend]
    rw [hlt] at hend
    omega

theorem copyOut_spec {nSize : Uint64} (h : f.Reads setup)
    (hahead : f.nReadPos.toNat < f.nSrcPos.toNat) (hpos : 0 < nSize.toNat)
    (hmost : nSize.toNat ≤ f.vchBuf.length) :
    Ends (fun _ _ => False) (copyOut nSize) f fun pch f' => ∃ k, 0 < k ∧ k ≤ nSize.toNat ∧
      pch = (setup.bytes.drop f.nReadPos.toNat).take k ∧ pch.length = k ∧ Moves setup k f f' := by
  have hindex := h.toNat_index f.nReadPos
  have hmod := h.mod_lt f.nReadPos.toNat
  have hwithin := h.within
  have hnow := h.toNat_copyNow hmost
  generalize hk : min (min nSize.toNat (f.vchBuf.length-f.nReadPos.toNat%f.vchBuf.length))
    (f.nSrcPos.toNat-f.nReadPos.toNat) = k at hnow
  have hslice := h.ring.slice (k := k) h.held (by omega) (by omega)
  simp only [Ends,copyOut,hindex,hnow]
  rw [if_neg (by omega)]
  refine ⟨k,by omega,by omega,hslice,?_,h.advance hnow (by omega)⟩
  rw [List.length_take,List.length_drop]
  omega

theorem Moves.nReadPos {k : Nat} (h : Moves setup k f f') :
    f'.nReadPos.toNat = f.nReadPos.toNat+k := by
  have hplain := congrArg PlainFile.nPos h.plain
  exact hplain

/-- A slice of the file, put together. -/
theorem take_drop_append {bytes : List UInt8} {n k l : Nat} :
    (bytes.drop n).take k ++ (bytes.drop (n+k)).take l = (bytes.drop n).take (k+l) := by
  rw [List.take_add,List.drop_drop]

/-- `nSize` goes down with each round, in which the reader moves. -/
theorem readLoop_spec {fuel : Nat} {nSize : Uint64} (h : f.Reads setup)
    (hmost : nSize.toNat ≤ f.vchBuf.length) (hfuel : nSize.toNat < fuel) :
    Ends (fun e f' => ∃ k, k < nSize.toNat ∧ Moves setup k f f' ∧ f'.Stuck setup e)
      (readLoop fuel nSize) f fun pch f' =>
        pch = (setup.bytes.drop f.nReadPos.toNat).take nSize.toNat ∧ pch.length = nSize.toNat ∧
        Moves setup nSize.toNat f f' := by
  induction fuel generalizing f nSize with
  | zero => omega
  | succ fuel ih =>
    unfold readLoop
    apply Ends.ite
    · intro hzero
      subst hzero
      simp [Moves.refl h]
    · intro hsome
      have hpos : 0 < nSize.toNat := by
        have hne : nSize.toNat ≠ (0 : Uint64).toNat := fun heq => hsome (BitVec.eq_of_toNat_eq heq)
        exact Nat.pos_of_ne_zero hne
      refine ((fillIfRead_spec h).weaken (fun e f₁ he => ⟨0,hpos,he⟩) fun _ f₁ hp => hp).bind ?_
      rintro - f₁ ⟨hfill,hahead⟩
      have h₁ := hfill.reads
      have hlen : f₁.vchBuf.length = f.vchBuf.length := h₁.size.trans h.size.symm
      refine ((copyOut_spec h₁ hahead hpos (hlen ▸ hmost)).weaken (fun _ _ hfalse => hfalse.elim)
        fun _ _ hp => hp).bind ?_
      rintro pch f₂ ⟨k,hk0,hk,hpch,hpchLen,hcopy⟩
      have h₂ := hcopy.reads
      have hmoved := hfill.trans hcopy
      rw [Nat.zero_add] at hmoved
      have hrest : (nSize-BitVec.ofNat 64 pch.length).toNat = nSize.toNat-k := by
        rw [BitVec.toNat_sub,BitVec.toNat_ofNat,hpchLen]
        omega
      have hlen₂ : f₂.vchBuf.length = f.vchBuf.length := h₂.size.trans h.size.symm
      have hloop := @ih f₂ (nSize-BitVec.ofNat 64 pch.length) h₂
        (by rw [hrest,hlen₂]; omega) (by rw [hrest]; omega)
      rw [hrest] at hloop
      refine (hloop.weaken ?_ fun _ _ hp => hp).bind ?_
      · rintro e f' ⟨l,hl,hmoves,hstuck⟩
        exact ⟨k+l,by omega,hmoved.trans hmoves,hstuck⟩
      · rintro rest f' ⟨hrestEq,hrestLen,hmoves⟩
        have hsum : k+(nSize.toNat-k) = nSize.toNat := by omega
        refine ⟨?_,?_,?_⟩
        · rw [hrestEq,hmoved.nReadPos,hpch,hfill.nReadPos,Nat.add_zero,take_drop_append,hsum]
        · rw [List.length_append,hpchLen,hrestLen,hsum]
        · rw [← hsum]
          exact hmoved.trans hmoves

theorem passByte_spec {ch : UInt8} (h : f.Reads setup)
    (hahead : f.nReadPos.toNat < f.nSrcPos.toNat) :
    Ends (fun _ _ => False) (passByte ch) f fun fFound f' =>
      if fFound then setup.bytes[f.nReadPos.toNat]? = some ch ∧ Moves setup 0 f f'
      else setup.bytes[f.nReadPos.toNat]? ≠ some ch ∧ Moves setup 1 f f' := by
  have hwithin := h.within
  have hheld := h.ring f.nReadPos.toNat hahead h.held
  rw [List.getElem?_eq_getElem (by omega : f.nReadPos.toNat < setup.bytes.length)] at hheld ⊢
  simp only [Ends,passByte,BitVec.toNat_umod,h.toNat_size,hheld,Option.some.injEq]
  by_cases hfound : setup.bytes[f.nReadPos.toNat] = ch
  · simp only [if_pos hfound,if_true]
    exact ⟨hfound,.refl h⟩
  · simp only [if_neg hfound,Bool.false_eq_true,if_false]
    exact ⟨fun heq => hfound (Option.some.inj heq),h.advance rfl hahead⟩

/-- What is left of the file goes down with each byte that is passed. -/
theorem findByte_spec {fuel : Nat} {ch : UInt8} (h : f.Reads setup)
    (hfuel : setup.bytes.length < f.nReadPos.toNat+fuel) :
    Ends (fun e f' => ∃ k, ch ∉ (setup.bytes.drop f.nReadPos.toNat).take k ∧ Moves setup k f f' ∧
        f'.Stuck setup e) (findByte fuel ch) f fun _ f' =>
      ∃ k, ch ∉ (setup.bytes.drop f.nReadPos.toNat).take k ∧ Moves setup k f f' ∧
        setup.bytes[f.nReadPos.toNat+k]? = some ch := by
  induction fuel generalizing f with
  | zero =>
    have hwithin := h.within
    have hbehind := h.behind
    omega
  | succ fuel ih =>
    refine ((fillIfRead_spec h).weaken (fun e f₁ he => ⟨0,by simp,he⟩) fun _ f₁ hp => hp).bind ?_
    rintro - f₁ ⟨hfill,hahead⟩
    have h₁ := hfill.reads
    have hpos := hfill.nReadPos
    rw [Nat.add_zero] at hpos
    refine ((@passByte_spec _ _ ch h₁ hahead).weaken (fun _ _ hfalse => hfalse.elim)
      fun _ _ hp => hp).bind ?_
    intro fFound f₂ hpass
    rw [hpos] at hpass
    cases fFound with
    | true =>
      obtain ⟨hch,hmoves⟩ := hpass
      exact ⟨0,by simp,hfill.trans hmoves,hch⟩
    | false =>
      obtain ⟨hch,hmoves⟩ := hpass
      have hmoved := hfill.trans hmoves
      rw [Nat.zero_add] at hmoved
      have hskip {k : Nat} (hk : ch ∉ (setup.bytes.drop (f.nReadPos.toNat+1)).take k) :
          ch ∉ (setup.bytes.drop f.nReadPos.toNat).take (1+k) := by
        rw [← take_drop_append,List.mem_append,not_or,List.take_one,List.head?_drop]
        exact ⟨by simpa using hch,hk⟩
      have hloop := ih hmoves.reads (by rw [hmoved.nReadPos]; omega)
      rw [hmoved.nReadPos] at hloop
      refine hloop.weaken ?_ ?_
      · rintro e f' ⟨k,hk,hrest,hstuck⟩
        exact ⟨1+k,hskip hk,hmoved.trans hrest,hstuck⟩
      · rintro - f' ⟨k,hk,hrest,hfound⟩
        rw [Nat.add_assoc] at hfound
        exact ⟨1+k,hskip hk,hmoved.trans hrest,hfound⟩

/-- A position that the ring reaches back to is taken, as long as the sum with the bytes kept for
rewinding does not wrap around below them. -/
theorem setPos_spec {nPos : Uint64} (h : f.Reads setup)
    (hwrap : nPos+f.nRewind < f.nSrcPos → f.nRewind ≤ f.nSrcPos) :
    Ends (fun _ _ => False) (setPos nPos) f fun fOk f' => Continues setup f f' ∧
      f'.plain = { f.plain with nPos := if fOk then nPos.toNat else f'.plain.nPos } ∧
      (nPos.toNat ≤ f.nSrcPos.toNat → f.nSrcPos.toNat ≤ nPos.toNat+f.nRewind.toNat →
        fOk = true) := by
  have hrewind := h.nRewind_lt
  have hbytes := h.bytes_lt
  have hwithin := h.within
  simp only [Ends,setPos]
  by_cases hlow : nPos+f.nRewind < f.nSrcPos
  · have hle := BitVec.le_def.mp (hwrap hlow)
    have hback : (f.nSrcPos-f.nRewind).toNat = f.nSrcPos.toNat-f.nRewind.toNat := by
      rw [BitVec.toNat_sub]
      omega
    rw [if_pos hlow]
    refine ⟨h.moveTo _ (by omega) (by omega),rfl,fun hbehind hheld => ?_⟩
    rw [BitVec.lt_def,BitVec.toNat_add] at hlow
    omega
  · rw [if_neg hlow]
    by_cases hhigh : f.nSrcPos < nPos
    · rw [if_pos hhigh]
      refine ⟨h.moveTo _ le_rfl (by omega),rfl,fun hbehind _ => ?_⟩
      rw [BitVec.lt_def] at hhigh
      omega
    · rw [if_neg hhigh]
      rw [BitVec.lt_def,BitVec.toNat_add] at hlow
      rw [BitVec.lt_def] at hhigh
      exact ⟨h.moveTo _ (by omega) (by omega),rfl,fun _ _ => rfl⟩

theorem setLimit_spec {nPos : Uint64} (h : f.Reads setup) :
    Ends (fun _ _ => False) (setLimit nPos) f fun fOk f' => Continues setup f f' ∧
      fOk = decide (f.nReadPos.toNat ≤ nPos.toNat) ∧
      f'.plain = { f.plain with nLimit := if fOk then nPos.toNat else f.plain.nLimit } := by
  simp only [Ends,setLimit]
  by_cases hlow : nPos < f.nReadPos
  · rw [if_pos hlow]
    rw [BitVec.lt_def] at hlow
    exact ⟨⟨h,le_rfl⟩,by simpa using hlow,rfl⟩
  · rw [if_neg hlow]
    rw [BitVec.lt_def] at hlow
    exact ⟨⟨⟨h.bytes,h.given,h.size,h.rewind,h.pos,h.within,h.behind,h.held,h.ring⟩,le_rfl⟩,
      by simpa using hlow,rfl⟩

theorem Moves.stops {k : Nat} {e : BufferedFileError} (h : Moves setup k f f')
    (hbytes : f.src.bytes = setup.bytes) (hstuck : f'.Stuck setup e) :
    f.plain.Stops setup.given e f'.plain := by
  refine ⟨k,h.plain,?_⟩
  rw [show f.plain.bytes = setup.bytes from hbytes]
  exact hstuck

theorem read_spec {fuel : Nat} {nSize : Uint64} (h : f.Reads setup)
    (hsum : f.nReadLimit < nSize+f.nReadPos ∨ nSize.toNat+f.nRewind.toNat < 2^64)
    (hfuel : f.vchBuf.length < fuel) :
    Ends (fun e f' => Continues setup f f' ∧
        f.plain.Answers setup.given (f.vchBuf.length-f.nRewind.toNat) (.read nSize) (.error e)
          f'.plain) (read fuel nSize) f
      fun pch f' => Continues setup f f' ∧
        f.plain.Answers setup.given (f.vchBuf.length-f.nRewind.toNat) (.read nSize)
          (.ok (.data pch)) f'.plain := by
  have hbytes := h.bytes_lt
  have hwithin := h.within
  have hbehind := h.behind
  have hrewind := h.nRewind_lt
  have hplain : f.plain.bytes = setup.bytes := h.bytes
  simp only [Ends,read]
  by_cases hlimit : f.nReadLimit < nSize+f.nReadPos
  · rw [if_pos hlimit]
    rw [BitVec.lt_def,BitVec.toNat_add] at hlimit
    have hover : f.plain.nLimit < f.plain.nPos+nSize.toNat := by
      simp only [CBufferedFile.plain]
      omega
    exact ⟨⟨h,le_rfl⟩,.inl ⟨rfl,hover,rfl⟩⟩
  · have hsum := hsum.resolve_left hlimit
    rw [if_neg hlimit]
    rw [BitVec.lt_def,BitVec.toNat_add] at hlimit
    by_cases hlarge : f.size < nSize+f.nRewind
    · rw [if_pos hlarge]
      rw [BitVec.lt_def,BitVec.toNat_add,h.toNat_size] at hlarge
      exact ⟨⟨h,le_rfl⟩,.inr (.inl ⟨rfl,by omega,rfl⟩)⟩
    · rw [if_neg hlarge]
      rw [BitVec.lt_def,BitVec.toNat_add,h.toNat_size] at hlarge
      refine (@readLoop_spec _ _ fuel nSize h (by omega) (by omega)).weaken ?_ ?_
      · rintro e f' ⟨k,hk,hmoves,hstuck⟩
        refine ⟨hmoves.toContinues,.inr (.inr ⟨hmoves.stops h.bytes hstuck,?_⟩)⟩
        have hpos := hmoves.nReadPos
        simp only [CBufferedFile.plain]
        omega
      · rintro pch f' ⟨hpch,hlen,hmoves⟩
        refine ⟨hmoves.toContinues,?_,hplain ▸ hpch,hlen,hmoves.plain⟩
        simp only [CBufferedFile.plain]
        omega

theorem call_spec {fuel : Nat} {c : BufferCall} (h : f.Reads setup)
    (hread : ∀ nSize, c = .read nSize →
      f.nReadLimit < nSize+f.nReadPos ∨ nSize.toNat+f.nRewind.toNat < 2^64)
    (hset : ∀ nPos, c = .setPos nPos → nPos+f.nRewind < f.nSrcPos → f.nRewind ≤ f.nSrcPos)
    (hfuel : setup.bytes.length+f.vchBuf.length < fuel) :
    Ends (fun e f' => Continues setup f f' ∧
        f.plain.Answers setup.given (f.vchBuf.length-f.nRewind.toNat) c (.error e) f'.plain)
      (call fuel c) f
      fun reply f' => Continues setup f f' ∧
        f.plain.Answers setup.given (f.vchBuf.length-f.nRewind.toNat) c (.ok reply) f'.plain ∧
        ∀ nPos, c = .setPos nPos → nPos.toNat ≤ f.nSrcPos.toNat →
          f.nSrcPos.toNat ≤ nPos.toNat+f.nRewind.toNat → reply = .answer true := by
  have hplain : f.plain.bytes = setup.bytes := h.bytes
  cases c with
  | read nSize =>
    refine (read_spec h (hread nSize rfl) (by omega)).bind ?_
    rintro pch f' ⟨hcontinues,hanswers⟩
    exact ⟨hcontinues,hanswers,fun nPos heq => by simp at heq⟩
  | setPos nPos =>
    refine ((setPos_spec h (hset nPos rfl)).weaken (fun _ _ hfalse => hfalse.elim)
      fun _ _ hp => hp).bind ?_
    rintro fOk f' ⟨hcontinues,hmoved,htaken⟩
    refine ⟨hcontinues,⟨?_,hmoved⟩,?_⟩
    · rw [hplain]
      exact hcontinues.reads.behind.trans hcontinues.reads.within
    · rintro nPos' heq hbehind hheld
      obtain rfl := BufferCall.setPos.inj heq
      rw [htaken hbehind hheld]
  | findByte ch =>
    have hfind := @findByte_spec _ _ fuel ch h (by omega)
    refine (hfind.weaken ?_ fun _ _ hp => hp).bind ?_
    · rintro e f' ⟨k,hk,hmoves,hstuck⟩
      refine ⟨hmoves.toContinues,hmoves.stops h.bytes hstuck,?_⟩
      rw [hmoves.plain,Nat.add_sub_cancel_left,hplain]
      exact hk
    · rintro - f' ⟨k,hk,hmoves,hfound⟩
      refine ⟨hmoves.toContinues,⟨k,hmoves.plain,?_,?_⟩,fun nPos heq => by simp at heq⟩
      · rw [hplain]
        exact hfound
      · rw [hplain]
        exact hk
  | setLimit nPos =>
    refine ((setLimit_spec h).weaken (fun _ _ hfalse => hfalse.elim) fun _ _ hp => hp).bind ?_
    rintro fOk f' ⟨hcontinues,hlimited,hplain'⟩
    exact ⟨hcontinues,⟨hlimited,hplain'⟩,fun nPos' heq => by simp at heq⟩

end

end CBufferedFile

/-- A reader in use, and the furthest position it was at. -/
structure FileHistory where
  file : CBufferedFile
  nFurthest : Nat

namespace FileHistory

def create (setup : ReaderSetup) : FileHistory :=
  ⟨.create ⟨setup.bytes,0,setup.given,0⟩ setup.nBufSize setup.nRewindIn,0⟩

def goOn (h : FileHistory) (file : CBufferedFile) : FileHistory :=
  ⟨file,max h.nFurthest file.nReadPos.toNat⟩

/-- The calls go on after an exception. -/
def step (fuel : Nat) (h : FileHistory) (c : BufferCall) :
    Except BufferedFileError BufferReply × FileHistory :=
  match CBufferedFile.call fuel c h.file with
  | .ok reply file => (.ok reply,h.goOn file)
  | .error e file => (.error e,h.goOn file)

/-- More rounds than a loop over the file makes. -/
def enough (setup : ReaderSetup) (fuel : Nat) : Prop :=
  setup.bytes.length+setup.nBufSize.toNat < fuel

/-- The next call answers as a plain file does, in a bounded number of rounds, and a rewind by at
most `nRewind` bytes from the furthest position succeeds. -/
def Faithful (setup : ReaderSetup) (h : FileHistory) (c : BufferCall) : Prop :=
  ∀ fuel, enough setup fuel →
    h.file.plain.Answers setup.given (setup.nBufSize.toNat-setup.nRewindIn.toNat) c
      (h.step fuel c).1 (h.step fuel c).2.file.plain ∧
    ∀ nPos, c = .setPos nPos → nPos.toNat ≤ h.nFurthest →
      h.nFurthest ≤ nPos.toNat+setup.nRewindIn.toNat → (h.step fuel c).1 = .ok (.answer true)

/-- Where the reader keeps its promise: the sums with the size of a read and with the target of a
rewind do not wrap around, and what was read ahead of the furthest position leaves enough for the
rewind. -/
def admits (h : FileHistory) : BufferCall → Prop
  | .read nSize => h.file.nReadLimit < nSize+h.file.nReadPos ∨
    nSize.toNat+h.file.nRewind.toNat < 2^64
  | .setPos nPos =>
    (nPos+h.file.nRewind < h.file.nSrcPos → h.file.nRewind ≤ h.file.nSrcPos) ∧
    (nPos.toNat ≤ h.nFurthest → h.nFurthest ≤ nPos.toNat+h.file.nRewind.toNat →
      h.file.nSrcPos.toNat ≤ nPos.toNat+h.file.nRewind.toNat)
  | _ => True

/-- The states of a reader in use. -/
abbrev Runs (setup : ReaderSetup) (admits : FileHistory → BufferCall → Prop) :
    FileHistory → Prop :=
  ReachableBy (fun h c h' => ∃ fuel, enough setup fuel ∧ (h.step fuel c).2 = h') admits
    (create setup)

structure Inv (setup : ReaderSetup) (h : FileHistory) : Prop where
  reads : h.file.Reads setup
  passed : h.file.nReadPos.toNat ≤ h.nFurthest
  furthest : h.nFurthest ≤ h.file.nSrcPos.toNat

variable {setup : ReaderSetup} {h : FileHistory} {c : BufferCall} {fuel : Nat}

theorem inv_create (setup : ReaderSetup) : Inv setup (create setup) := by
  refine ⟨⟨rfl,rfl,?_,rfl,rfl,Nat.zero_le _,le_rfl,Nat.zero_le _,.zero⟩,le_rfl,le_rfl⟩
  simp [create,CBufferedFile.create]

/-- One call, with what it keeps and what it answers. -/
theorem Inv.step (hinv : Inv setup h) (hadmits : h.admits c) (hfuel : enough setup fuel) :
    Inv setup (h.step fuel c).2 ∧
    h.file.plain.Answers setup.given (setup.nBufSize.toNat-setup.nRewindIn.toNat) c
      (h.step fuel c).1 (h.step fuel c).2.file.plain ∧
    ∀ nPos, c = .setPos nPos → nPos.toNat ≤ h.nFurthest →
      h.nFurthest ≤ nPos.toNat+setup.nRewindIn.toNat →
        (h.step fuel c).1 = .ok (.answer true) := by
  have hreads := hinv.reads
  have hcall := @CBufferedFile.call_spec _ _ fuel c hreads
    (fun nSize heq => by subst heq; exact hadmits) (fun nPos heq => by subst heq; exact hadmits.1)
    (by rw [hreads.size]; exact hfuel)
  rw [hreads.size,hreads.rewind] at hcall
  have hkeeps {file : CBufferedFile} (hcontinues : CBufferedFile.Continues setup h.file file) :
      Inv setup (h.goOn file) :=
    ⟨hcontinues.reads,Nat.le_max_right _ _,
      max_le (hinv.furthest.trans hcontinues.later) hcontinues.reads.behind⟩
  simp only [FileHistory.step]
  cases hres : CBufferedFile.call fuel c h.file with
  | ok reply file =>
    obtain ⟨hcontinues,hanswers,htaken⟩ := hcall.result hres
    refine ⟨hkeeps hcontinues,hanswers,fun nPos heq hpassed hfar => ?_⟩
    subst heq
    have hheld := hadmits.2 hpassed (by rw [hreads.rewind]; exact hfar)
    rw [hreads.rewind] at hheld
    rw [htaken nPos rfl (hpassed.trans hinv.furthest) hheld]
  | error e file =>
    obtain ⟨hcontinues,hanswers⟩ := hcall.failure hres
    refine ⟨hkeeps hcontinues,hanswers,fun nPos heq => ?_⟩
    subst heq
    exact hanswers.elim

/-- The reader of block files refines a plain file in every run whose calls are admitted. -/
theorem bufferedFile_faithful (hruns : Runs setup admits h) (hadmits : h.admits c) :
    h.Faithful setup c := by
  have hinv : Inv setup h := hruns.invariant (Inv setup) (inv_create setup)
    fun h c h' hinv hadmits ⟨fuel,hfuel,hstep⟩ => hstep ▸ (hinv.step hadmits hfuel).1
  intro fuel hfuel
  exact (hinv.step hadmits hfuel).2

/-- Six bytes and a buffer of four, of which two are kept for rewinding. -/
def sixBytes (given : Nat → Nat) : ReaderSetup where
  bytes := [1,2,3,4,5,6]
  given := given
  nBufSize := 4
  nRewindIn := 2
  rewind_lt := by decide
  size_lt := by decide
  bytes_lt := by decide

/-- Three reads of one byte. -/
def readThree (given : Nat → Nat) : FileHistory :=
  let readOne (h : FileHistory) := (h.step 11 (.read 1)).2
  readOne (readOne (readOne (create (sixBytes given))))

theorem enough_sixBytes (given : Nat → Nat) : enough (sixBytes given) 11 := by
  show 6+4 < 11
  decide

theorem bufferedFile_faithful_sixBytes :
    (readThree fun _ => 1).Faithful (sixBytes fun _ => 1) (.setPos 1) := by
  have hone : enough (sixBytes fun _ => 1) 11 := enough_sixBytes _
  refine bufferedFile_faithful (.step (.step (.step .init ?_ ⟨11,hone,rfl⟩) ?_ ⟨11,hone,rfl⟩) ?_
    ⟨11,hone,rfl⟩) ⟨?_,?_⟩
  · exact .inr (by decide)
  · exact .inr (by decide)
  · exact .inr (by decide)
  · decide
  · decide

/-- When the file is read ahead of the reader, it does not go back as far as it promises. -/
theorem rewind_fails : ¬∀ (setup : ReaderSetup) (h : FileHistory) (c : BufferCall),
    Runs setup (fun _ _ => True) h → h.Faithful setup c := by
  intro h
  have hmany : enough (sixBytes fun _ => 100) 11 := enough_sixBytes _
  have hruns : Runs (sixBytes fun _ => 100) (fun _ _ => True) (readThree fun _ => 100) :=
    .step (.step (.step .init trivial ⟨11,hmany,rfl⟩) trivial ⟨11,hmany,rfl⟩) trivial
      ⟨11,hmany,rfl⟩
  have hrewind := (h _ _ (.setPos 1) hruns 11 hmany).2 1 rfl (by decide) (by decide)
  have hrefused : ((readThree fun _ => 100).step 11 (.setPos 1)).1 = .ok (.answer false) := by
    rfl
  rw [hrefused] at hrewind
  simp at hrewind

end FileHistory

end Anoncoin
