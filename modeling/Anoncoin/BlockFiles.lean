import Anoncoin.Block
import Anoncoin.Lib.Containers
import Anoncoin.Lib.Extents
import Anoncoin.Lib.Runs

/-!
The positions of blocks and undo data on disk (main.cpp): `FindBlockPos` and `FindUndoPos` over
`vinfoBlockFile` and `nLastBlockFile`.
-/

set_option autoImplicit false

namespace Anoncoin
open Lib

structure CBlockFileInfo where
  nBlocks : Uint32
  nSize : Uint32
  nUndoSize : Uint32
  nHeightFirst : Uint32
  nHeightLast : Uint32
  nTimeFirst : Uint64
  nTimeLast : Uint64
  deriving DecidableEq, Repr

namespace CBlockFileInfo

/-- `SetNull`. -/
def null : CBlockFileInfo := ⟨0,0,0,0,0,0,0⟩

def addBlock (info : CBlockFileInfo) (nHeightIn : Uint32) (nTimeIn : Uint64) : CBlockFileInfo :=
  { info with
    nHeightFirst := if info.nBlocks = 0 ∨ nHeightIn < info.nHeightFirst then nHeightIn
      else info.nHeightFirst
    nTimeFirst := if info.nBlocks = 0 ∨ nTimeIn < info.nTimeFirst then nTimeIn
      else info.nTimeFirst
    nBlocks := info.nBlocks+1
    nHeightLast := if info.nHeightLast < nHeightIn then nHeightIn else info.nHeightLast
    nTimeLast := if info.nTimeLast < nTimeIn then nTimeIn else info.nTimeLast }

end CBlockFileInfo

/-- A position that is not null. The numbers of files do not wrap. -/
structure CDiskBlockPos where
  nFile : Nat
  nPos : Uint32
  deriving DecidableEq, Repr

def maxBlockfileSize : Uint32 := 0x8000000

def blockfileChunkSize : Uint32 := 0x1000000

def undofileChunkSize : Uint32 := 0x100000

/-- The globals of main.cpp about the files. -/
structure BlockFiles where
  vinfoBlockFile : List CBlockFileInfo
  nLastBlockFile : Nat
  setDirtyFileInfo : Finset Nat

namespace BlockFiles

def empty : BlockFiles := ⟨[],0,∅⟩

/-- The entry of a file; without one the file is as good as empty. -/
def infoAt (v : List CBlockFileInfo) (nFile : Nat) : CBlockFileInfo := v[nFile]?.getD .null

def info (s : BlockFiles) (nFile : Nat) : CBlockFileInfo := infoAt s.vinfoBlockFile nFile

/-- The loop of `FindBlockPos` that looks for a file with room. -/
def searchFile (nAddSize : Uint32) :
    Nat → List CBlockFileInfo → Nat → Option (List CBlockFileInfo × Nat)
  | 0, _, _ => none
  | fuel+1, v, nFile =>
      match v[nFile]? with
      | none => none
      | some info =>
          if maxBlockfileSize ≤ info.nSize+nAddSize then
            searchFile nAddSize fuel (pad .null (nFile+1+1) v) (nFile+1)
          else some (v,nFile)

def chooseFile (fuel : Nat) (s : BlockFiles) (pos : CDiskBlockPos) (nAddSize : Uint32)
    (fKnown : Bool) : Option (List CBlockFileInfo × Nat) :=
  if fKnown then some (pad .null (pos.nFile+1) s.vinfoBlockFile,pos.nFile)
  else searchFile nAddSize fuel (pad .null (s.nLastBlockFile+1) s.vinfoBlockFile) s.nLastBlockFile

/-- Whether there is the space for the chunks that begin with the new data, in the arithmetic of
32 bits; `space` is the answer of `CheckDiskSpace`. -/
def chunksFit (space : Uint64 → Bool) (chunk nPos nNewSize : Uint32) : Bool :=
  let nOldChunks := (nPos+chunk-1)/chunk
  let nNewChunks := (nNewSize+chunk-1)/chunk
  if nOldChunks < nNewChunks then space ((nNewChunks*chunk-nPos).setWidth 64) else true

/-- The entry of a file is written back; the file is dirty where the function does not fail. -/
def storeInfo (s : BlockFiles) (v : List CBlockFileInfo) (nFile : Nat) (new : CBlockFileInfo)
    (fDirty : Bool) : BlockFiles where
  vinfoBlockFile := v.set nFile new
  nLastBlockFile := nFile
  setDirtyFileInfo := if fDirty then insert nFile s.setDirtyFileInfo else s.setDirtyFileInfo

/-- `FindBlockPos`: its answer, the position, and the globals. There is no result where the search
does not end. -/
def findBlockPos (space : Uint64 → Bool) (fuel : Nat) (s : BlockFiles) (pos : CDiskBlockPos)
    (nAddSize nHeight : Uint32) (nTime : Uint64) (fKnown : Bool) :
    Option (Bool × CDiskBlockPos × BlockFiles) := do
  let (v,nFile) ← chooseFile fuel s pos nAddSize fKnown
  let old ← v[nFile]?
  let pos := if fKnown then pos else ⟨nFile,old.nSize⟩
  let nSize := if fKnown then
      if pos.nPos+nAddSize < old.nSize then old.nSize else pos.nPos+nAddSize
    else old.nSize+nAddSize
  let fOk := fKnown || chunksFit space blockfileChunkSize pos.nPos nSize
  some (fOk,pos,s.storeInfo v nFile { old.addBlock nHeight nTime with nSize := nSize } fOk)

/-- `FindUndoPos`, for a file with an entry. -/
def findUndoPos (space : Uint64 → Bool) (s : BlockFiles) (nFile : Nat) (nAddSize : Uint32) :
    Option (Bool × CDiskBlockPos × BlockFiles) := do
  let old ← s.vinfoBlockFile[nFile]?
  let nNewSize := old.nUndoSize+nAddSize
  some (chunksFit space undofileChunkSize old.nUndoSize nNewSize,⟨nFile,old.nUndoSize⟩,{ s with
    vinfoBlockFile := s.vinfoBlockFile.set nFile { old with nUndoSize := nNewSize }
    setDirtyFileInfo := insert nFile s.setDirtyFileInfo })

section Search
variable {v : List CBlockFileInfo} {nAddSize : Uint32} {nFile n : Nat} {old : CBlockFileInfo}

/-- Growing the vector changes no entry. -/
@[simp] theorem infoAt_pad (n : Nat) (v : List CBlockFileInfo) (nFile : Nat) :
    infoAt (pad .null n v) nFile = infoAt v nFile := by
  unfold infoAt pad
  rcases Nat.lt_or_ge nFile v.length with hlt | hge
  · rw [List.getElem?_append_left hlt]
  · rw [List.getElem?_append_right hge,List.getElem?_replicate,List.getElem?_eq_none hge]
    split <;> rfl

theorem infoAt_set (h : nFile < v.length) (new : CBlockFileInfo) (other : Nat) :
    infoAt (v.set nFile new) other = if other = nFile then new else infoAt v other := by
  unfold infoAt
  rw [List.getElem?_set]
  by_cases heq : nFile = other
  · subst heq
    simp [h]
  · rw [if_neg heq,if_neg (Ne.symm heq)]

theorem getElem?_infoAt (h : nFile < v.length) : v[nFile]? = some (infoAt v nFile) := by
  unfold infoAt
  rw [List.getElem?_eq_getElem h]
  rfl

/-- A file that has room for the data, behind the one that the search started at. -/
structure HasRoom (v : List CBlockFileInfo) (nAddSize : Uint32) (v' : List CBlockFileInfo)
    (nFile : Nat) : Prop where
  same : ∀ f, infoAt v' f = infoAt v f
  lt : nFile < v'.length
  room : ¬maxBlockfileSize ≤ (infoAt v nFile).nSize+nAddSize

theorem searchFile_step (h : nFile < v.length) (fuel : Nat) :
    searchFile nAddSize (fuel+1) v nFile =
      if maxBlockfileSize ≤ (infoAt v nFile).nSize+nAddSize then
        searchFile nAddSize fuel (pad .null (nFile+1+1) v) (nFile+1)
      else some (v,nFile) := by
  rw [searchFile,getElem?_infoAt h]

theorem HasRoom.here (h : nFile < v.length)
    (hroom : ¬maxBlockfileSize ≤ (infoAt v nFile).nSize+nAddSize) : HasRoom v nAddSize v nFile :=
  ⟨fun _ => rfl,h,hroom⟩

theorem HasRoom.grown {v' : List CBlockFileInfo} (h : HasRoom (pad .null n v) nAddSize v' nFile) :
    HasRoom v nAddSize v' nFile where
  same f := (h.same f).trans (infoAt_pad n v f)
  lt := h.lt
  room := by
    have hroom := h.room
    rwa [infoAt_pad] at hroom

/-- With room in the file the search does not go on. -/
theorem searchFile_here (h : nFile < v.length)
    (hroom : ¬maxBlockfileSize ≤ (infoAt v nFile).nSize+nAddSize) :
    ∃ v' f, (∀ fuel, v.length < nFile+fuel → searchFile nAddSize fuel v nFile = some (v',f)) ∧
      HasRoom v nAddSize v' f := by
  refine ⟨v,nFile,?_,.here h hroom⟩
  intro fuel hfuel
  obtain ⟨fuel,rfl⟩ : ∃ m, fuel = m+1 := ⟨fuel-1,by omega⟩
  rw [searchFile_step h,if_neg hroom]

/-- The search ends at the latest behind the last entry, where the file is empty. -/
theorem searchFile_ends (hsize : nAddSize < maxBlockfileSize) (h : nFile < v.length) :
    ∃ v' f, (∀ fuel, v.length < nFile+fuel → searchFile nAddSize fuel v nFile = some (v',f)) ∧
      HasRoom v nAddSize v' f := by
  obtain ⟨k,hk⟩ : ∃ k, v.length = nFile+1+k := ⟨v.length-(nFile+1),by omega⟩
  induction k generalizing v nFile with
  | zero =>
    by_cases hfull : maxBlockfileSize ≤ (infoAt v nFile).nSize+nAddSize
    · have hlen : nFile+1 < (pad CBlockFileInfo.null (nFile+1+1) v).length := by
        rw [pad_length]
        omega
      have hempty : infoAt (pad .null (nFile+1+1) v) (nFile+1) = .null := by
        rw [infoAt_pad,infoAt,List.getElem?_eq_none (by omega)]
        rfl
      have hroom : ¬maxBlockfileSize ≤
          (infoAt (pad .null (nFile+1+1) v) (nFile+1)).nSize+nAddSize := by
        rw [hempty]
        exact BitVec.not_le.mpr (by simpa [CBlockFileInfo.null] using hsize)
      refine ⟨_,nFile+1,?_,(HasRoom.here hlen hroom).grown⟩
      intro fuel hfuel
      obtain ⟨fuel,rfl⟩ : ∃ m, fuel = m+1+1 := ⟨fuel-2,by omega⟩
      rw [searchFile_step h,if_pos hfull,searchFile_step hlen,if_neg hroom]
    · exact searchFile_here h hfull
  | succ k ih =>
    by_cases hfull : maxBlockfileSize ≤ (infoAt v nFile).nSize+nAddSize
    · have hlen : (pad CBlockFileInfo.null (nFile+1+1) v).length = nFile+1+1+k := by
        rw [pad_length]
        omega
      obtain ⟨v',f,hsearch,hroom⟩ := @ih (pad .null (nFile+1+1) v) (nFile+1) (by omega) hlen
      refine ⟨v',f,?_,hroom.grown⟩
      intro fuel hfuel
      obtain ⟨fuel,rfl⟩ : ∃ m, fuel = m+1 := ⟨fuel-1,by omega⟩
      rw [searchFile_step h,if_pos hfull]
      exact hsearch fuel (by omega)
    · exact searchFile_here h hfull

/-- More rounds do not change where the search ends. -/
theorem searchFile_unique {fuel fuel' : Nat} {r r' : List CBlockFileInfo × Nat}
    (h : searchFile nAddSize fuel v nFile = some r)
    (h' : searchFile nAddSize fuel' v nFile = some r') : r = r' := by
  induction fuel generalizing fuel' v nFile with
  | zero => simp [searchFile] at h
  | succ fuel ih =>
    cases fuel' with
    | zero => simp [searchFile] at h'
    | succ fuel' =>
      unfold searchFile at h h'
      cases hold : v[nFile]? with
      | none =>
        rw [hold] at h
        contradiction
      | some old =>
        rw [hold] at h h'
        simp only at h h'
        split at h
        · rename_i hfull
          rw [if_pos hfull] at h'
          exact ih h h'
        · rename_i hroom
          rw [if_neg hroom] at h'
          exact Option.some.inj (h.symm.trans h')

end Search

section Calls
variable {s : BlockFiles} {space : Uint64 → Bool} {pos : CDiskBlockPos} {nAddSize nHeight : Uint32}
  {nTime : Uint64} {nFile : Nat}

/-- Of a file whose undo data stays as it is, only the entry is another. -/
theorem storeInfo_info {v : List CBlockFileInfo} {new : CBlockFileInfo} (hlt : nFile < v.length)
    (hsame : ∀ g, infoAt v g = s.info g) (hundo : new.nUndoSize = (s.info nFile).nUndoSize)
    (fDirty : Bool) : (s.storeInfo v nFile new fDirty).info nFile = new ∧
      (∀ g ≠ nFile, (s.storeInfo v nFile new fDirty).info g = s.info g) ∧
      ∀ g, ((s.storeInfo v nFile new fDirty).info g).nUndoSize = (s.info g).nUndoSize := by
  have hset : ∀ g, (s.storeInfo v nFile new fDirty).info g =
      if g = nFile then new else s.info g := by
    intro g
    rw [← hsame g]
    exact infoAt_set hlt new g
  refine ⟨by simp [hset],fun g hg => by simp [hset,hg],fun g => ?_⟩
  rw [hset]
  split
  · rename_i heq
    rw [heq,hundo]
  · rfl

/-- A new block is appended to a file with room for it. -/
theorem findBlockPos_new (hsize : nAddSize < maxBlockfileSize) : ∃ fOk f files,
    (∀ fuel, s.vinfoBlockFile.length+1 < fuel →
      s.findBlockPos space fuel pos nAddSize nHeight nTime false =
        some (fOk,⟨f,(s.info f).nSize⟩,files)) ∧
    (s.info f).nSize+nAddSize < maxBlockfileSize ∧
    (files.info f).nSize = (s.info f).nSize+nAddSize ∧ (∀ g ≠ f, files.info g = s.info g) ∧
    ∀ g, (files.info g).nUndoSize = (s.info g).nUndoSize := by
  have hlen : (pad CBlockFileInfo.null (s.nLastBlockFile+1) s.vinfoBlockFile).length =
      max s.vinfoBlockFile.length (s.nLastBlockFile+1) := pad_length _ _ _
  obtain ⟨v,f,hsearch,hroom⟩ := @searchFile_ends
    (pad .null (s.nLastBlockFile+1) s.vinfoBlockFile) nAddSize s.nLastBlockFile hsize (by omega)
  have hsame : ∀ g, infoAt v g = s.info g := fun g => (hroom.same g).trans (infoAt_pad _ _ _)
  have hfits : (s.info f).nSize+nAddSize < maxBlockfileSize := by
    have hnot := hroom.room
    rw [infoAt_pad] at hnot
    exact BitVec.not_le.mp hnot
  obtain ⟨hnew,hothers,hundo⟩ := @storeInfo_info s f v
    { (s.info f).addBlock nHeight nTime with nSize := (s.info f).nSize+nAddSize } hroom.lt hsame rfl
    (chunksFit space blockfileChunkSize (s.info f).nSize ((s.info f).nSize+nAddSize))
  refine ⟨chunksFit space blockfileChunkSize (s.info f).nSize ((s.info f).nSize+nAddSize),f,_,
    fun fuel hfuel => ?_,hfits,?_,hothers,hundo⟩
  · unfold findBlockPos chooseFile
    simp only [Bool.false_eq_true,if_false,hsearch fuel (by omega),Option.bind_eq_bind,
      Option.bind_some,getElem?_infoAt hroom.lt,hsame f,Bool.false_or]
  · rw [hnew]

/-- A block whose position is known raises the size of its file to its end. -/
theorem findBlockPos_known : ∃ files,
    (∀ fuel, s.findBlockPos space fuel pos nAddSize nHeight nTime true = some (true,pos,files)) ∧
    ((files.info pos.nFile).nSize =
      if pos.nPos+nAddSize < (s.info pos.nFile).nSize then (s.info pos.nFile).nSize
      else pos.nPos+nAddSize) ∧
    (∀ g ≠ pos.nFile, files.info g = s.info g) ∧
    ∀ g, (files.info g).nUndoSize = (s.info g).nUndoSize := by
  have hlt : pos.nFile < (pad CBlockFileInfo.null (pos.nFile+1) s.vinfoBlockFile).length := by
    rw [pad_length]
    omega
  have hsame : ∀ g, infoAt (pad .null (pos.nFile+1) s.vinfoBlockFile) g = s.info g :=
    fun g => infoAt_pad _ _ _
  obtain ⟨hnew,hothers,hundo⟩ := @storeInfo_info s pos.nFile _
    { (s.info pos.nFile).addBlock nHeight nTime with
      nSize := if pos.nPos+nAddSize < (s.info pos.nFile).nSize then (s.info pos.nFile).nSize
        else pos.nPos+nAddSize } hlt hsame rfl true
  refine ⟨_,fun fuel => ?_,?_,hothers,hundo⟩
  · unfold findBlockPos chooseFile
    simp only [if_true,Option.bind_eq_bind,Option.bind_some,getElem?_infoAt hlt,hsame,Bool.true_or]
  · rw [hnew]

/-- Undo data is appended to its file. -/
theorem findUndoPos_eq (h : nFile < s.vinfoBlockFile.length) : ∃ fOk files,
    s.findUndoPos space nFile nAddSize = some (fOk,⟨nFile,(s.info nFile).nUndoSize⟩,files) ∧
    (files.info nFile).nUndoSize = (s.info nFile).nUndoSize+nAddSize ∧
    (∀ g ≠ nFile, files.info g = s.info g) ∧ ∀ g, (files.info g).nSize = (s.info g).nSize := by
  have hold : s.vinfoBlockFile[nFile]? = some (s.info nFile) := getElem?_infoAt h
  have hset : ∀ g, infoAt (s.vinfoBlockFile.set nFile
      { s.info nFile with nUndoSize := (s.info nFile).nUndoSize+nAddSize }) g =
      if g = nFile then { s.info nFile with nUndoSize := (s.info nFile).nUndoSize+nAddSize }
      else s.info g := fun g => infoAt_set h _ g
  refine ⟨chunksFit space undofileChunkSize (s.info nFile).nUndoSize
      ((s.info nFile).nUndoSize+nAddSize),{ s with
    vinfoBlockFile := s.vinfoBlockFile.set nFile
      { s.info nFile with nUndoSize := (s.info nFile).nUndoSize+nAddSize }
    setDirtyFileInfo := insert nFile s.setDirtyFileInfo },?_,?_,fun g hg => ?_,fun g => ?_⟩
  · unfold findUndoPos
    simp only [Option.bind_eq_bind,Option.bind_some,hold]
  · rw [info,hset,if_pos rfl]
  · rw [info,hset,if_neg hg]
  · rw [info,hset]
    split
    · rename_i heq
      rw [heq]
    · rfl

theorem findBlockPos_unique {fuel fuel' : Nat} {fKnown : Bool}
    {r r' : Bool × CDiskBlockPos × BlockFiles}
    (h : s.findBlockPos space fuel pos nAddSize nHeight nTime fKnown = some r)
    (h' : s.findBlockPos space fuel' pos nAddSize nHeight nTime fKnown = some r') : r = r' := by
  unfold findBlockPos at h h'
  obtain ⟨c,hc,hrest⟩ := Option.bind_eq_some_iff.mp h
  obtain ⟨c',hc',hrest'⟩ := Option.bind_eq_some_iff.mp h'
  have heq : c = c' := by
    unfold chooseFile at hc hc'
    cases fKnown with
    | true => exact Option.some.inj (hc.symm.trans hc')
    | false => exact searchFile_unique hc hc'
  subst heq
  exact Option.some.inj (hrest.symm.trans hrest')

end Calls

end BlockFiles

end Anoncoin
