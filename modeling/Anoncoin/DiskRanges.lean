import Anoncoin.BlockFiles

/-!
Runs of calls of `FindBlockPos` and `FindUndoPos` from empty file information, with the ranges
that they return or that they are told of.
-/

set_option autoImplicit false

namespace Anoncoin
open Lib

/-- The prefix of a file: blk?????.dat or rev?????.dat. -/
inductive FileKind
  | blk
  | rev
  deriving DecidableEq, Repr

/-- A call with its arguments, and with what `CheckDiskSpace` answers meanwhile. -/
inductive FileCall
  | findBlockPos (space : Uint64 → Bool) (pos : CDiskBlockPos) (nAddSize nHeight : Uint32)
      (nTime : Uint64) (fKnown : Bool)
  | findUndoPos (space : Uint64 → Bool) (nFile : Nat) (nAddSize : Uint32)

namespace FileCall

def kind : FileCall → FileKind
  | findBlockPos .. => .blk
  | findUndoPos .. => .rev

def nAddSize : FileCall → Uint32
  | findBlockPos _ _ nAddSize _ _ _ => nAddSize
  | findUndoPos _ _ nAddSize => nAddSize

/-- The position that a call is told, where it is told one. -/
def known : FileCall → Option CDiskBlockPos
  | findBlockPos _ pos _ _ _ fKnown => if fKnown then some pos else none
  | findUndoPos .. => none

def run (fuel : Nat) (s : BlockFiles) : FileCall → Option (Bool × CDiskBlockPos × BlockFiles)
  | findBlockPos space pos nAddSize nHeight nTime fKnown =>
      s.findBlockPos space fuel pos nAddSize nHeight nTime fKnown
  | findUndoPos space nFile nAddSize => s.findUndoPos space nFile nAddSize

/-- The range that a call is about, once its position is there. -/
def range (e : FileCall) (pos : CDiskBlockPos) : Extent (FileKind × Nat) where
  key := (e.kind,pos.nFile)
  start := pos.nPos.toNat
  length := e.nAddSize.toNat

theorem run_unique {e : FileCall} {s : BlockFiles} {fuel fuel' : Nat}
    {r r' : Bool × CDiskBlockPos × BlockFiles} (h : e.run fuel s = some r)
    (h' : e.run fuel' s = some r') : r = r' := by
  cases e with
  | findBlockPos => exact BlockFiles.findBlockPos_unique h h'
  | findUndoPos => exact Option.some.inj (h.symm.trans h')

end FileCall

/-- The file information with all the ranges so far, the last one first. -/
structure FileRun where
  files : BlockFiles
  ranges : List (Extent (FileKind × Nat))

/-- The counter of a file. -/
def BlockFiles.fileSize (files : BlockFiles) : FileKind × Nat → Nat
  | (.blk,nFile) => (files.info nFile).nSize.toNat
  | (.rev,nFile) => (files.info nFile).nUndoSize.toNat

namespace FileRun

def init : FileRun := ⟨.empty,[]⟩

/-- The range counts whether or not there was the space on disk. -/
def call (fuel : Nat) (s : FileRun) (e : FileCall) : Option FileRun := do
  let (_,pos,files) ← e.run fuel s.files
  some ⟨files,e.range pos :: s.ranges⟩

/-- A call that ends. -/
def Step (s : FileRun) (e : FileCall) (s' : FileRun) : Prop := ∃ fuel, call fuel s e = some s'

/-- A new block is smaller than a file, a known range ends below 2^31, and undo data is of a file
with an entry, with a total below 2^32. -/
def Admits (s : FileRun) : FileCall → Prop
  | .findBlockPos _ pos nAddSize _ _ fKnown =>
      if fKnown then pos.nPos.toNat+nAddSize.toNat < 2^31 else nAddSize < maxBlockfileSize
  | .findUndoPos _ nFile nAddSize => nFile < s.files.vinfoBlockFile.length ∧
      Extent.total s.ranges (.rev,nFile)+nAddSize.toNat < 2^32

/-- What a call comes to, in the arithmetic of natural numbers. -/
structure Allocates (s : FileRun) (e : FileCall) (pos : CDiskBlockPos) (files : BlockFiles) :
    Prop where
  told : ∀ p, e.known = some p → pos = p
  append : e.known = none → (e.range pos).start = s.files.fileSize (e.range pos).key
  fresh : e.known = none → ∀ r ∈ s.ranges, r.key = (e.range pos).key →
    Disjoint r.bytes (e.range pos).bytes
  noWrap : (e.range pos).stop < 2^32
  size : files.fileSize (e.range pos).key =
    max (s.files.fileSize (e.range pos).key) (e.range pos).stop
  others : ∀ k ≠ (e.range pos).key, files.fileSize k = s.files.fileSize k
  search : e.kind = .blk → e.known = none →
    (∀ nFile, s.files.fileSize (.blk,nFile)+e.nAddSize.toNat < 2^32) ∧
    files.fileSize (e.range pos).key < maxBlockfileSize.toNat

/-- What the calls keep. -/
structure Ok (s : FileRun) : Prop where
  bounded : Extent.Bounded s.files.fileSize s.ranges
  small : ∀ nFile, s.files.fileSize (.blk,nFile) < 2^31
  undo : ∀ nFile, s.files.fileSize (.rev,nFile) = Extent.total s.ranges (.rev,nFile)

theorem Ok.init : Ok init where
  bounded := Extent.bounded_nil _
  small _ := Nat.two_pow_pos 31
  undo _ := rfl

variable {s : FileRun} {e : FileCall} {pos : CDiskBlockPos} {files : BlockFiles}
  {nAddSize nHeight : Uint32} {nTime : Uint64} {space : Uint64 → Bool} {nFile : Nat}

theorem Ok.fresh (h : Ok s) (happend : (e.range pos).start = s.files.fileSize (e.range pos).key) :
    ∀ r ∈ s.ranges, r.key = (e.range pos).key → Disjoint r.bytes (e.range pos).bytes :=
  h.bounded.disjoint happend

theorem Admits.known_stop (h : Admits s e) (hknown : e.known = some pos) :
    (e.range pos).stop < 2^31 := by
  cases e with
  | findBlockPos space p nAddSize nHeight nTime fKnown =>
    cases fKnown with
    | true =>
      obtain rfl := Option.some.inj hknown
      exact h
    | false => contradiction
  | findUndoPos => contradiction

theorem Allocates.keeps (h : Allocates s e pos files) (hok : Ok s) (hadmits : Admits s e) :
    Ok ⟨files,e.range pos :: s.ranges⟩ where
  bounded := by
    refine hok.bounded.cons (fun k => ?_) ?_
    · by_cases hk : k = (e.range pos).key
      · rw [hk,h.size]
        exact Nat.le_max_left _ _
      · rw [h.others k hk]
    · rw [h.size]
      exact Nat.le_max_right _ _
  small nFile := by
    by_cases hk : (FileKind.blk,nFile) = (e.range pos).key
    · have hkind : e.kind = .blk := (congrArg Prod.fst hk).symm
      rw [hk]
      cases hknown : e.known with
      | none =>
        have hroom := (h.search hkind hknown).2
        have hmax : maxBlockfileSize.toNat < 2^31 := by decide
        exact hroom.trans hmax
      | some p =>
        have hold := hok.small nFile
        have hstop : (e.range pos).stop < 2^31 := by
          rw [h.told p hknown]
          exact hadmits.known_stop hknown
        rw [hk] at hold
        rw [h.size]
        exact Nat.max_lt.mpr ⟨hold,hstop⟩
    · rw [h.others _ hk]
      exact hok.small nFile
  undo nFile := by
    rw [Extent.total_cons]
    by_cases hk : (e.range pos).key = (FileKind.rev,nFile)
    · have hkind : e.kind = .rev := congrArg Prod.fst hk
      have hknown : e.known = none := by
        cases e with
        | findBlockPos => contradiction
        | findUndoPos => rfl
      have happend := h.append hknown
      rw [if_pos hk,← hk,h.size,Extent.stop,← happend,Nat.max_eq_right (Nat.le_add_right _ _),
        Nat.add_comm,happend,hk,hok.undo]
    · rw [if_neg hk,h.others _ (Ne.symm hk),Nat.zero_add]
      exact hok.undo nFile

/-- Files other than the one of a block keep their sizes. -/
theorem fileSize_others {f : Nat} (hothers : ∀ g ≠ f, files.info g = s.files.info g)
    (hundo : ∀ g, (files.info g).nUndoSize = (s.files.info g).nUndoSize) :
    ∀ k ≠ (FileKind.blk,f), files.fileSize k = s.files.fileSize k := by
  intro k hk
  obtain ⟨kind,g⟩ := k
  cases kind with
  | blk =>
    have hg : g ≠ f := fun hg => hk (congrArg (Prod.mk FileKind.blk) hg)
    exact congrArg (fun info => info.nSize.toNat) (hothers g hg)
  | rev => exact congrArg BitVec.toNat (hundo g)

theorem Ok.newBlock (hok : Ok s) (hsize : nAddSize < maxBlockfileSize) :
    ∃ fOk p files, (∀ fuel, s.files.vinfoBlockFile.length+1 < fuel →
      s.files.findBlockPos space fuel pos nAddSize nHeight nTime false = some (fOk,p,files)) ∧
    Allocates s (.findBlockPos space pos nAddSize nHeight nTime false) p files := by
  obtain ⟨fOk,f,files,hrun,hroom,hnew,hothers,hundo⟩ :=
    @BlockFiles.findBlockPos_new s.files space pos nAddSize nHeight nTime hsize
  have hmax : maxBlockfileSize.toNat = 2^27 := by decide
  have hadd : nAddSize.toNat < 2^27 := hmax ▸ BitVec.lt_def.mp hsize
  have hfits : ∀ nFile, s.files.fileSize (.blk,nFile)+nAddSize.toNat < 2^32 := fun nFile => by
    have hsmall := hok.small nFile
    omega
  have hsum : ((s.files.info f).nSize+nAddSize).toNat =
      s.files.fileSize (.blk,f)+nAddSize.toNat := by
    rw [BitVec.toNat_add]
    exact Nat.mod_eq_of_lt (hfits f)
  have hgrown : files.fileSize (.blk,f) = s.files.fileSize (.blk,f)+nAddSize.toNat := by
    rw [← hsum,← hnew]
    rfl
  have hroom' : files.fileSize (.blk,f) < maxBlockfileSize.toNat := by
    rw [hgrown,← hsum]
    exact BitVec.lt_def.mp hroom
  refine ⟨fOk,⟨f,(s.files.info f).nSize⟩,files,hrun,?_⟩
  exact {
    told := fun p (hp : none = some p) => nomatch hp
    append := fun _ => rfl
    fresh := fun _ => hok.fresh rfl
    noWrap := hfits f
    size := hgrown.trans (Nat.max_eq_right (Nat.le_add_right _ _)).symm
    others := fileSize_others hothers hundo
    search := fun _ _ => ⟨hfits,hroom'⟩ }

theorem knownBlock_allocates (hend : pos.nPos.toNat+nAddSize.toNat < 2^31) :
    ∃ files, (∀ fuel, s.files.findBlockPos space fuel pos nAddSize nHeight nTime true =
      some (true,pos,files)) ∧
    Allocates s (.findBlockPos space pos nAddSize nHeight nTime true) pos files := by
  obtain ⟨files,hrun,hnew,hothers,hundo⟩ :=
    @BlockFiles.findBlockPos_known s.files space pos nAddSize nHeight nTime
  have hfits : pos.nPos.toNat+nAddSize.toNat < 2^32 := by omega
  have hsum : (pos.nPos+nAddSize).toNat = pos.nPos.toNat+nAddSize.toNat := by
    rw [BitVec.toNat_add]
    exact Nat.mod_eq_of_lt hfits
  have hmax : files.fileSize (.blk,pos.nFile) =
      max (s.files.fileSize (.blk,pos.nFile)) (pos.nPos.toNat+nAddSize.toNat) := by
    rw [BlockFiles.fileSize,hnew,← hsum]
    split
    · rename_i hlt
      exact (Nat.max_eq_left (BitVec.lt_def.mp hlt).le).symm
    · rename_i hle
      exact (Nat.max_eq_right (BitVec.le_def.mp (BitVec.not_lt.mp hle))).symm
  refine ⟨files,hrun,?_⟩
  exact {
    told := fun _ hp => Option.some.inj hp
    append := fun (hnone : some pos = none) => nomatch hnone
    fresh := fun (hnone : some pos = none) => nomatch hnone
    noWrap := hfits
    size := hmax
    others := fileSize_others hothers hundo
    search := fun _ (hnone : some pos = none) => nomatch hnone }

theorem Ok.undoData (hok : Ok s) (hfile : nFile < s.files.vinfoBlockFile.length)
    (htotal : Extent.total s.ranges (.rev,nFile)+nAddSize.toNat < 2^32) :
    ∃ fOk p files, s.files.findUndoPos space nFile nAddSize = some (fOk,p,files) ∧
    Allocates s (.findUndoPos space nFile nAddSize) p files := by
  obtain ⟨fOk,files,hrun,hnew,hothers,hsizes⟩ :=
    @BlockFiles.findUndoPos_eq s.files space nAddSize nFile hfile
  have hfits : s.files.fileSize (.rev,nFile)+nAddSize.toNat < 2^32 := by
    rw [hok.undo]
    exact htotal
  have hgrown : files.fileSize (.rev,nFile) = s.files.fileSize (.rev,nFile)+nAddSize.toNat := by
    rw [BlockFiles.fileSize,hnew,BitVec.toNat_add]
    exact Nat.mod_eq_of_lt hfits
  have hsame : ∀ k ≠ (FileKind.rev,nFile), files.fileSize k = s.files.fileSize k := by
    intro k hk
    obtain ⟨kind,g⟩ := k
    cases kind with
    | blk => exact congrArg BitVec.toNat (hsizes g)
    | rev =>
      have hg : g ≠ nFile := fun hg => hk (congrArg (Prod.mk FileKind.rev) hg)
      exact congrArg (fun info => info.nUndoSize.toNat) (hothers g hg)
  refine ⟨fOk,⟨nFile,(s.files.info nFile).nUndoSize⟩,files,hrun,?_⟩
  exact {
    told := fun p (hp : none = some p) => nomatch hp
    append := fun _ => rfl
    fresh := fun _ => hok.fresh rfl
    noWrap := hfits
    size := hgrown.trans (Nat.max_eq_right (Nat.le_add_right _ _)).symm
    others := hsame
    search := fun hkind => FileKind.noConfusion hkind }

/-- Every admitted call ends, and where it ends it allocates. -/
theorem Ok.allocates (hok : Ok s) (hadmits : Admits s e) :
    ∃ fOk p files, (∀ fuel, s.files.vinfoBlockFile.length+1 < fuel →
      e.run fuel s.files = some (fOk,p,files)) ∧ Allocates s e p files := by
  cases e with
  | findBlockPos space pos nAddSize nHeight nTime fKnown =>
    cases fKnown with
    | true =>
      obtain ⟨files,hrun,halloc⟩ := knownBlock_allocates (s := s) hadmits
      exact ⟨true,pos,files,fun fuel _ => hrun fuel,halloc⟩
    | false => exact hok.newBlock hadmits
  | findUndoPos space nFile nAddSize =>
    obtain ⟨fOk,p,files,hrun,halloc⟩ := hok.undoData hadmits.1 hadmits.2
    exact ⟨fOk,p,files,fun _ _ => hrun,halloc⟩

theorem Ok.step {s' : FileRun} (hok : Ok s) (hadmits : Admits s e) (hstep : Step s e s') :
    Ok s' := by
  obtain ⟨fOk,p,files,hrun,halloc⟩ := hok.allocates hadmits
  obtain ⟨fuel,hcall⟩ := hstep
  obtain ⟨r,hrun',hstate⟩ := Option.bind_eq_some_iff.mp hcall
  obtain rfl := FileCall.run_unique (hrun _ (Nat.lt_succ_self _)) hrun'
  obtain rfl := Option.some.inj hstate
  exact halloc.keeps hok hadmits

theorem ok_of_reachable (h : ReachableBy Step Admits init s) : Ok s :=
  h.invariant Ok .init fun _ _ _ => Ok.step

theorem reachable_call {s' : FileRun} {fuel : Nat} (h : ReachableBy Step Admits init s)
    (hadmits : Admits s e) (hcall : call fuel s e = some s') : ReachableBy Step Admits init s' :=
  h.step hadmits ⟨fuel,hcall⟩

/-- After every run of admitted calls, a call that is admitted ends and allocates. -/
theorem call_allocates (h : ReachableBy Step Admits init s) (hadmits : Admits s e) :
    ∃ fOk p files, (∀ fuel, s.files.vinfoBlockFile.length+1 < fuel →
      e.run fuel s.files = some (fOk,p,files)) ∧ Allocates s e p files :=
  (ok_of_reachable h).allocates hadmits

/-- A block was found in file 3, a new one was appended to it, and the undo data of the first was
written; then another new block comes. -/
theorem call_allocates_known : ∃ s, s.ranges =
      [⟨(.rev,3),0,140⟩,⟨(.blk,3),1008,300⟩,⟨(.blk,3),8,1000⟩] ∧
    ∃ fOk p files, (∀ fuel, s.files.vinfoBlockFile.length+1 < fuel →
      (FileCall.findBlockPos (fun _ => true) ⟨0,0⟩ 200 2 0 false).run fuel s.files =
        some (fOk,p,files)) ∧
      Allocates s (.findBlockPos (fun _ => true) ⟨0,0⟩ 200 2 0 false) p files := by
  have hknown : Admits init (.findBlockPos (fun _ => true) ⟨3,8⟩ 1000 1 0 true) :=
    Nat.lt_of_lt_of_eq (by decide : 8+1000 < 2^31) rfl
  have hnew : ∀ s n, n < maxBlockfileSize →
      Admits s (.findBlockPos (fun _ => true) ⟨0,0⟩ n 2 0 false) := fun _ _ hn => hn
  have h₁ := reachable_call .init hknown (rfl : call 1 _ _ = some _)
  have h₂ := reachable_call h₁ (hnew _ 300 (by decide)) (rfl : call 1 _ _ = some _)
  have h₃ := reachable_call (e := .findUndoPos (fun _ => true) 3 140) h₂ ⟨by decide,by decide⟩
    (rfl : call 1 _ _ = some _)
  exact ⟨_,rfl,call_allocates h₃ (hnew _ 200 (by decide))⟩

end FileRun

end Anoncoin
