import Anoncoin.WalletStartup

/-!
`ScanForWalletTransactions` (wallet.cpp) with the readings of the clock, which decide when it
logs its progress.
-/

set_option autoImplicit false

namespace Anoncoin

/-- The readings of `GetTime` so far, and the time of the last message. -/
structure ScanClock where
  nCalls : Nat
  nNow : Int

/-- The blocks whose transactions `AddToWalletIfInvolvingMe` is given, and whether a null
pointer is read through, which ends the scan. -/
structure ScanRun where
  passed : List CBlockIndex
  nullRead : Bool
  deriving DecidableEq

namespace CChain

/-- The second loop of `ScanForWalletTransactions`; its message gives the height of the block
that comes next. -/
def loggedLoop (c : CChain) (getTime : Nat → Int) :
    Nat → ScanClock → Option CBlockIndex → ScanRun
  | fuel+1, clock, some pindex =>
      let next := c.next pindex
      let rest :=
        if getTime clock.nCalls ≥ clock.nNow+60 then
          if next.isSome then
            loggedLoop c getTime fuel ⟨clock.nCalls+2,getTime (clock.nCalls+1)⟩ next
          else ⟨[],true⟩
        else loggedLoop c getTime fuel ⟨clock.nCalls+1,clock.nNow⟩ next
      ⟨pindex :: rest.passed,rest.nullRead⟩
  | _, _, _ => ⟨[],false⟩

def loggedScan (c : CChain) (getTime : Nat → Int) (nTimeFirstKey : Int)
    (pindexStart : Option CBlockIndex) : ScanRun :=
  c.loggedLoop getTime c.vChain.length ⟨1,getTime 0⟩
    (c.skipLoop nTimeFirstKey c.vChain.length pindexStart)

/-- The blocks of the chain from a height on. -/
def blocksFrom (c : CChain) (nHeight : Nat) : List CBlockIndex :=
  (c.vChain.drop nHeight).filterMap id

/-- The blocks that are to be scanned: from the start on, without those at its front that are
older than the wallet. -/
def dueBlocks (c : CChain) (nTimeFirstKey : Int) : Option CBlockIndex → List CBlockIndex
  | none => []
  | some pindexStart =>
      (c.blocksFrom pindexStart.nHeight).dropWhile fun b => BeforeBirthday nTimeFirstKey b

end CChain

namespace ScanClock

/-- Whether a message is due. -/
def Logs (getTime : Nat → Int) (clock : ScanClock) : Prop :=
  getTime clock.nCalls ≥ clock.nNow+60

instance (getTime : Nat → Int) (clock : ScanClock) : Decidable (clock.Logs getTime) := by
  unfold Logs
  infer_instance

/-- The clock after another block. -/
def tick (getTime : Nat → Int) (clock : ScanClock) : ScanClock :=
  if clock.Logs getTime then ⟨clock.nCalls+2,getTime (clock.nCalls+1)⟩
  else ⟨clock.nCalls+1,clock.nNow⟩

/-- The clock after a number of blocks. -/
def after (getTime : Nat → Int) (clock : ScanClock) : Nat → ScanClock
  | 0 => clock
  | n+1 => after getTime (clock.tick getTime) n

end ScanClock

namespace CChain
variable {tip i : CBlockIndex} {getTime : Nat → Int} {nTimeFirstKey : Int}

theorem loggedLoop_succ (c : CChain) (fuel : Nat) (clock : ScanClock) :
    c.loggedLoop getTime (fuel+1) clock (some i) =
      if clock.Logs getTime ∧ c.next i = none then ⟨[i],true⟩
      else
        ⟨i :: (c.loggedLoop getTime fuel (clock.tick getTime) (c.next i)).passed,
          (c.loggedLoop getTime fuel (clock.tick getTime) (c.next i)).nullRead⟩ := by
  rw [loggedLoop]
  by_cases hlogs : clock.Logs getTime
  · have htime : getTime clock.nCalls ≥ clock.nNow+60 := hlogs
    cases hnext : c.next i <;> simp [ScanClock.tick,hlogs,htime]
  · have htime : ¬getTime clock.nCalls ≥ clock.nNow+60 := hlogs
    simp [ScanClock.tick,hlogs,htime]

theorem loggedLoop_none (c : CChain) (fuel : Nat) (clock : ScanClock) :
    c.loggedLoop getTime fuel clock none = ⟨[],false⟩ := by
  cases fuel <;> rfl

theorem passed_loggedLoop (c : CChain) (fuel : Nat) (clock : ScanClock)
    (pindex : Option CBlockIndex) :
    (c.loggedLoop getTime fuel clock pindex).passed = c.scanLoop fuel pindex := by
  induction fuel generalizing clock pindex with
  | zero => rfl
  | succ fuel ih =>
    cases pindex with
    | none => rfl
    | some i =>
      rw [loggedLoop_succ,scanLoop]
      split
      · rename_i hend
        rw [hend.2]
        cases fuel <;> rfl
      · rw [ih]

/-- The clock does not change what is passed to the wallet. -/
theorem passed_loggedScan (c : CChain) (pindexStart : Option CBlockIndex) :
    (c.loggedScan getTime nTimeFirstKey pindexStart).passed =
      c.scanForWalletTransactions nTimeFirstKey pindexStart :=
  passed_loggedLoop c _ _ _

theorem blocksFrom_pathTo (nHeight : Nat) :
    (pathTo tip).blocksFrom nHeight = tip.ancestors.reverse.drop nHeight := by
  unfold blocksFrom pathTo
  rw [← List.map_drop,List.filterMap_map]
  exact List.filterMap_some

theorem length_blocksFrom (nHeight : Nat) :
    ((pathTo tip).blocksFrom nHeight).length = tip.nHeight+1-nHeight := by
  rw [blocksFrom_pathTo,List.length_drop,List.length_reverse,length_ancestors]

theorem blocksFrom_above {nHeight : Nat} (h : tip.nHeight < nHeight) :
    (pathTo tip).blocksFrom nHeight = [] := by
  apply List.eq_nil_of_length_eq_zero
  rw [length_blocksFrom]
  omega

theorem blocksFrom_cons (hi : i ∈ tip.ancestors) :
    (pathTo tip).blocksFrom i.nHeight = i :: (pathTo tip).blocksFrom (i.nHeight+1) := by
  have hle := CBlockIndex.nHeight_le_of_mem_ancestors hi
  have hlt : i.nHeight < (pathTo tip).vChain.length := by
    rw [length_pathTo]
    omega
  have hget : (pathTo tip).vChain[i.nHeight] = some i := by
    have hsome := pathTo_getElem? hle
    rw [List.getElem?_eq_getElem hlt,CBlockIndex.ancestorAt_of_mem hi] at hsome
    exact Option.some.inj hsome
  unfold blocksFrom
  rw [List.drop_eq_getElem_cons hlt,hget]
  rfl

/-- The chain is in the order of its heights. -/
theorem ancestors_ascending (tip : CBlockIndex) :
    tip.ancestors.reverse.Pairwise fun a b => a.nHeight < b.nHeight := by
  induction tip with
  | genesis d => simp
  | child d p ih =>
    rw [CBlockIndex.ancestors_child,List.reverse_cons,List.pairwise_append]
    refine ⟨ih,List.pairwise_singleton _ _,?_⟩
    intro a ha b hb
    have hle := CBlockIndex.nHeight_le_of_mem_ancestors (List.mem_reverse.mp ha)
    rw [List.mem_singleton.mp hb]
    exact Nat.lt_succ_of_le hle

theorem dueBlocks_some (c : CChain) (i : CBlockIndex) :
    c.dueBlocks nTimeFirstKey (some i) =
      (c.blocksFrom i.nHeight).dropWhile fun b => BeforeBirthday nTimeFirstKey b := rfl

/-- Each block is to be scanned once, and in the order of the chain. -/
theorem dueBlocks_ascending (pindexStart : Option CBlockIndex) :
    ((pathTo tip).dueBlocks nTimeFirstKey pindexStart).Pairwise fun a b =>
      a.nHeight < b.nHeight := by
  cases pindexStart with
  | none => exact List.Pairwise.nil
  | some i =>
    rw [dueBlocks_some,blocksFrom_pathTo]
    exact (ancestors_ascending tip).sublist
      ((List.dropWhile_sublist _).trans (List.drop_sublist _ _))

/-- The second loop passes the rest of the chain, and reads through a null pointer where a
message is due after the tip. -/
theorem loggedLoop_pathTo {fuel : Nat} (clock : ScanClock) (hi : i ∈ tip.ancestors)
    (hfuel : tip.nHeight < i.nHeight+fuel) :
    (pathTo tip).loggedLoop getTime fuel clock (some i) =
      ⟨(pathTo tip).blocksFrom i.nHeight,
        decide ((clock.after getTime (tip.nHeight-i.nHeight)).Logs getTime)⟩ := by
  induction fuel generalizing i clock with
  | zero =>
    have := CBlockIndex.nHeight_le_of_mem_ancestors hi
    omega
  | succ fuel ih =>
    rw [loggedLoop_succ,blocksFrom_cons hi]
    rcases next_cases hi with ⟨hnone,rfl⟩ | ⟨j,hj,hmem,hheight⟩
    · rw [hnone,blocksFrom_above (Nat.lt_succ_self i.nHeight),loggedLoop_none,Nat.sub_self]
      by_cases hlogs : clock.Logs getTime
      · simp [hlogs,ScanClock.after]
      · simp [hlogs,ScanClock.after]
    · have hle := CBlockIndex.nHeight_le_of_mem_ancestors hmem
      have hleft : tip.nHeight-i.nHeight = tip.nHeight-j.nHeight+1 := by omega
      have hrest := ih (clock.tick getTime) hmem (by omega)
      rw [hj,if_neg (by simp),hrest,← hheight,hleft]
      rfl

/-- The first loop stops at the first block that is to be scanned. -/
theorem skipLoop_due {fuel : Nat} (hi : i ∈ tip.ancestors)
    (hfuel : tip.nHeight < i.nHeight+fuel) :
    ((pathTo tip).skipLoop nTimeFirstKey fuel (some i) = none ∧
        (pathTo tip).dueBlocks nTimeFirstKey (some i) = []) ∨
      ∃ j, (pathTo tip).skipLoop nTimeFirstKey fuel (some i) = some j ∧ j ∈ tip.ancestors ∧
        (pathTo tip).dueBlocks nTimeFirstKey (some i) = (pathTo tip).blocksFrom j.nHeight := by
  induction fuel generalizing i with
  | zero =>
    have := CBlockIndex.nHeight_le_of_mem_ancestors hi
    omega
  | succ fuel ih =>
    unfold skipLoop
    by_cases hold : BeforeBirthday nTimeFirstKey i
    · have hdue : (pathTo tip).dueBlocks nTimeFirstKey (some i) =
          ((pathTo tip).blocksFrom (i.nHeight+1)).dropWhile fun b =>
            BeforeBirthday nTimeFirstKey b := by
        rw [dueBlocks_some,blocksFrom_cons hi,List.dropWhile_cons_of_pos (by simpa using hold)]
      rw [if_pos hold,hdue]
      rcases next_cases hi with ⟨hnone,rfl⟩ | ⟨j,hj,hmem,hheight⟩
      · refine .inl ⟨?_,?_⟩
        · rw [hnone]
          cases fuel <;> rfl
        · rw [blocksFrom_above (Nat.lt_succ_self i.nHeight)]
          rfl
      · rw [hj,← hheight]
        exact ih hmem (by omega)
    · refine .inr ⟨i,if_neg hold,hi,?_⟩
      rw [dueBlocks_some,blocksFrom_cons hi,List.dropWhile_cons_of_neg (by simpa using hold)]

/-- What a scan does. -/
theorem loggedScan_eq (getTime : Nat → Int) {tip pindexStart : Option CBlockIndex}
    (hstart : ∀ i ∈ pindexStart, ((⟨[]⟩ : CChain).setTip tip).contains i = true) :
    ((⟨[]⟩ : CChain).setTip tip).loggedScan getTime nTimeFirstKey pindexStart =
      let due := ((⟨[]⟩ : CChain).setTip tip).dueBlocks nTimeFirstKey pindexStart
      ⟨due,decide (due ≠ [] ∧
        ((⟨1,getTime 0⟩ : ScanClock).after getTime (due.length-1)).Logs getTime)⟩ := by
  cases pindexStart with
  | none =>
    have hskip (c : CChain) (fuel : Nat) : c.skipLoop nTimeFirstKey fuel none = none := by
      cases fuel <;> rfl
    unfold loggedScan dueBlocks
    simp [hskip,loggedLoop_none]
  | some i =>
    have hi := hstart i rfl
    cases tip with
    | none => simp [setTip,contains,get] at hi
    | some tip =>
      rw [setTip_empty] at hi ⊢
      have hmem := (pathTo_contains tip i).mp hi
      unfold loggedScan
      rw [length_pathTo]
      rcases @skipLoop_due tip i nTimeFirstKey (tip.nHeight+1) hmem (by omega) with
        ⟨hskip,hdue⟩ | ⟨j,hskip,hj,hdue⟩
      · simp [hskip,hdue,loggedLoop_none]
      · have hle := CBlockIndex.nHeight_le_of_mem_ancestors hj
        have hne : (pathTo tip).blocksFrom j.nHeight ≠ [] := by
          rw [blocksFrom_cons hj]
          exact List.cons_ne_nil _ _
        have hlast : tip.nHeight+1-j.nHeight-1 = tip.nHeight-j.nHeight := by omega
        rw [hskip,hdue,loggedLoop_pathTo _ hj (by omega)]
        simp only [length_blocksFrom,hlast,hne,ne_eq,not_false_eq_true,true_and]

/-- The blocks that are due are scanned without a read through a null pointer exactly where
there are none or no message is due after the last of them. -/
theorem loggedScan_iff (getTime : Nat → Int) (nTimeFirstKey : Int)
    {tip pindexStart : Option CBlockIndex}
    (hstart : ∀ i ∈ pindexStart, ((⟨[]⟩ : CChain).setTip tip).contains i = true) :
    ((⟨[]⟩ : CChain).setTip tip).loggedScan getTime nTimeFirstKey pindexStart =
        ⟨((⟨[]⟩ : CChain).setTip tip).dueBlocks nTimeFirstKey pindexStart,false⟩ ↔
      ((⟨[]⟩ : CChain).setTip tip).dueBlocks nTimeFirstKey pindexStart = [] ∨
        ¬((⟨1,getTime 0⟩ : ScanClock).after getTime
          ((((⟨[]⟩ : CChain).setTip tip).dueBlocks nTimeFirstKey pindexStart).length-1)).Logs
          getTime := by
  rw [loggedScan_eq getTime hstart]
  simp only [ScanRun.mk.injEq,true_and,decide_eq_false_iff_not]
  tauto

theorem loggedScan_steady :
    ((⟨[]⟩ : CChain).setTip (some scanTip)).loggedScan (fun _ => 1200) 1 (some scanGenesis) =
      ⟨((⟨[]⟩ : CChain).setTip (some scanTip)).dueBlocks 1 (some scanGenesis),false⟩ := by
  refine (@loggedScan_iff (fun _ => 1200) 1 (some scanTip) _ ?_).mpr (.inr (by decide))
  intro i hi
  obtain rfl := Option.some.inj hi
  decide

/-- A scan that takes a minute for each block reads through the null pointer behind the tip. -/
theorem loggedScan_null :
    (∀ i ∈ some scanGenesis, ((⟨[]⟩ : CChain).setTip (some scanTip)).contains i = true) ∧
    ((⟨[]⟩ : CChain).setTip (some scanTip)).loggedScan (fun n => 60*n) 1 (some scanGenesis) =
      ⟨[scanGenesis,scanTip],true⟩ := by
  refine ⟨fun i hi => ?_,by decide⟩
  obtain rfl := Option.some.inj hi
  decide

end CChain

end Anoncoin
