import Mathlib.Data.Finset.Max
import Mathlib.Data.Finset.Sort
import Anoncoin.Lib.Windows
import Anoncoin.NetAddr

/-!
The adjusted time of timedata.cpp: the median filter over the offsets that peers report,
and the set of peers that have reported one.
-/

set_option autoImplicit false

namespace Anoncoin
open Lib

def MEDIAN_FILTER_SIZE : Nat := 199

def MIN_OFFSETS_BEFORE_CONSIDERATION : Nat := 7

def MAX_ALLOWED_PEER_OFFSET : Int := 900

def MAX_WARNING_OFFSET_FOUND : Int := 300

/-- `vSorted` is what `std::sort` makes of `vValues`. The filter starts with a value, so
the assertion of `median` is the field `nonempty`. -/
structure CMedianFilter where
  nSize : Nat
  vValues : List Int
  vSorted : List Int
  nonempty : vValues ≠ []
  sorted : vSorted = vValues.mergeSort

namespace CMedianFilter

def new (nSize : Nat) (initial_value : Int) : CMedianFilter where
  nSize := nSize
  vValues := [initial_value]
  vSorted := [initial_value]
  nonempty := List.cons_ne_nil _ _
  sorted := (List.mergeSort_singleton _).symm

def input (f : CMedianFilter) (value : Int) : CMedianFilter where
  nSize := f.nSize
  vValues := pushRecent f.nSize f.vValues value
  vSorted := (pushRecent f.nSize f.vValues value).mergeSort
  nonempty := pushRecent_ne_nil _ _ _
  sorted := rfl

/-- The division of C++ rounds towards zero. -/
def median (f : CMedianFilter) : Int :=
  let size := f.vSorted.length
  if size%2 = 1 then f.vSorted.getD (size/2) 0
  else (f.vSorted.getD (size/2-1) 0+f.vSorted.getD (size/2) 0).tdiv 2

def size (f : CMedianFilter) : Nat := f.vValues.length

end CMedianFilter

/-- The static variables of timedata.cpp. -/
structure TimeData where
  nTimeOffset : Int
  fWarningReported : Bool
  nAnalysisCount : Uint16
  fPeersAgreeWithOurAdjustedTime : Bool
  setKnown : Finset CNetAddr
  vTimeOffsets : CMedianFilter

/-- The arguments of a call, and the clock at that time. -/
structure TimeCall where
  ip : CNetAddr
  nTime : Int
  getTime : Int

/-- `setKnown.erase( setKnown.begin() )`. -/
def eraseBegin (s : Finset CNetAddr) : Finset CNetAddr :=
  if h : s.Nonempty then s.erase (s.min' h) else s

namespace TimeCall

/-- The subtraction of 64-bit integers. -/
def nOffsetSample (c : TimeCall) : Int := (c.nTime-c.getTime).bmod (2^64)

/-- The offset as far as it is believed. -/
def nStoredValue (c : TimeCall) : Int :=
  if c.nOffsetSample < -MAX_ALLOWED_PEER_OFFSET then -MAX_ALLOWED_PEER_OFFSET
  else if MAX_ALLOWED_PEER_OFFSET < c.nOffsetSample then MAX_ALLOWED_PEER_OFFSET
  else c.nOffsetSample

end TimeCall

namespace TimeData

def initial : TimeData :=
  ⟨0,false,0,true,∅,.new MEDIAN_FILTER_SIZE MAX_ALLOWED_PEER_OFFSET⟩

/-- The part of `AddTimeData` under the condition on the number of samples. The warning
goes out to the user when it has not been reported yet. -/
def analyse (fUTCisKnown : Bool) (s : TimeData) : TimeData :=
  let fAgree := s.vTimeOffsets.vSorted.any fun nOffset =>
    decide (|nOffset| < MAX_WARNING_OFFSET_FOUND)
  { s with
    nTimeOffset := if fUTCisKnown then 0 else s.vTimeOffsets.median
    fPeersAgreeWithOurAdjustedTime := fAgree
    fWarningReported :=
      if s.nAnalysisCount.toNat%3 = 0 then false else s.fWarningReported || !fAgree
    nAnalysisCount := s.nAnalysisCount+1 }

/-- The filter after a sample; the first one comes with the opposite of the value that the
filter was started with. -/
def store (f : CMedianFilter) (nStoredValue : Int) : CMedianFilter :=
  let f := f.input nStoredValue
  if f.size = 2 then f.input (-MAX_ALLOWED_PEER_OFFSET) else f

def remember (setKnown : Finset CNetAddr) (ip : CNetAddr) : Finset CNetAddr :=
  let setKnown := insert ip setKnown
  if MEDIAN_FILTER_SIZE/2 < setKnown.card then eraseBegin setKnown else setKnown

/-- Whether the filter is looked at when it has that many samples. -/
def considers (nSamplesSize : Nat) : Bool :=
  (decide (nSamplesSize < MEDIAN_FILTER_SIZE) && nSamplesSize%2 == 1) &&
    decide (MIN_OFFSETS_BEFORE_CONSIDERATION ≤ nSamplesSize)

def addTimeData (fUTCisKnown : Bool) (s : TimeData) (c : TimeCall) : TimeData :=
  if c.ip ∈ s.setKnown then s
  else
    let s := { s with
      setKnown := remember s.setKnown c.ip
      vTimeOffsets := store s.vTimeOffsets c.nStoredValue }
    if considers s.vTimeOffsets.size then s.analyse fUTCisKnown else s

/-- The state after calls, from the start of the program. -/
def after (fUTCisKnown : Bool) (calls : List TimeCall) : TimeData :=
  calls.foldl (addTimeData fUTCisKnown) initial

/-- Every sample in the filter with the peer it came from; the two values that the filter
is seeded with come from none. -/
def storeSample (samples : List (Option CNetAddr × Int)) (c : TimeCall) :
    List (Option CNetAddr × Int) :=
  let samples := pushRecent MEDIAN_FILTER_SIZE samples (some c.ip,c.nStoredValue)
  if samples.length = 2 then
    pushRecent MEDIAN_FILTER_SIZE samples (none,-MAX_ALLOWED_PEER_OFFSET)
  else samples

def trace (fUTCisKnown : Bool) (s : TimeData × List (Option CNetAddr × Int)) (c : TimeCall) :
    TimeData × List (Option CNetAddr × Int) :=
  (s.1.addTimeData fUTCisKnown c,if c.ip ∈ s.1.setKnown then s.2 else storeSample s.2 c)

/-- `after`, with the samples and their peers beside it. -/
def traced (fUTCisKnown : Bool) (calls : List TimeCall) :
    TimeData × List (Option CNetAddr × Int) :=
  calls.foldl (trace fUTCisKnown) (initial,[(none,MAX_ALLOWED_PEER_OFFSET)])

end TimeData

namespace CMedianFilter

theorem isMedian_median {f : CMedianFilter} (hodd : f.size%2 = 1) : IsMedian f.median f.vValues := by
  have hperm : f.vSorted.Perm f.vValues := by
    rw [f.sorted]
    exact List.mergeSort_perm _ _
  have hlen : f.vSorted.length%2 = 1 := by
    rw [hperm.length_eq]
    exact hodd
  have hsorted : f.vSorted.Pairwise (· ≤ ·) := by
    rw [f.sorted]
    simpa using @List.pairwise_mergeSort Int (fun a b => decide (a ≤ b))
      (by simpa using fun a b c => Int.le_trans) (by simpa using Int.le_total) f.vValues
  have hget : f.vSorted[f.vSorted.length/2]? = some f.median := by
    have hin : f.vSorted[f.vSorted.length/2]? = some f.vSorted[f.vSorted.length/2] :=
      List.getElem?_eq_getElem (by omega)
    simp [median,hlen,hin]
  exact (isMedian_middle hsorted hlen hget).perm hperm

end CMedianFilter

theorem TimeCall.nStoredValue_bound (c : TimeCall) :
    |c.nStoredValue| ≤ MAX_ALLOWED_PEER_OFFSET := by
  unfold nStoredValue
  by_cases hlow : c.nOffsetSample < -MAX_ALLOWED_PEER_OFFSET
  · rw [if_pos hlow]
    decide
  · rw [if_neg hlow]
    by_cases hhigh : MAX_ALLOWED_PEER_OFFSET < c.nOffsetSample
    · rw [if_pos hhigh]
      decide
    · rw [if_neg hhigh,abs_le]
      omega

namespace TimeData
variable {u : Bool} {s : TimeData} {c : TimeCall} {calls : List TimeCall}

@[simp] theorem after_snoc (u : Bool) (calls : List TimeCall) (c : TimeCall) :
    after u (calls ++ [c]) = (after u calls).addTimeData u c := by
  simp [after]

@[simp] theorem traced_snoc (u : Bool) (calls : List TimeCall) (c : TimeCall) :
    traced u (calls ++ [c]) = trace u (traced u calls) c := by
  simp [traced]

@[simp] theorem traced_fst (u : Bool) (calls : List TimeCall) :
    (traced u calls).1 = after u calls := by
  induction calls using List.reverseRecOn with
  | nil => rfl
  | append_singleton calls c ih => simp [trace,ih]

@[simp] theorem analyse_setKnown : (s.analyse u).setKnown = s.setKnown := rfl

@[simp] theorem analyse_vTimeOffsets : (s.analyse u).vTimeOffsets = s.vTimeOffsets := rfl

theorem addTimeData_known (h : c.ip ∈ s.setKnown) : s.addTimeData u c = s := if_pos h

/-- What a call from a peer that is not known does to the set and to the filter. -/
theorem addTimeData_new (h : c.ip ∉ s.setKnown) :
    (s.addTimeData u c).setKnown = remember s.setKnown c.ip ∧
      (s.addTimeData u c).vTimeOffsets = store s.vTimeOffsets c.nStoredValue := by
  unfold addTimeData
  rw [if_neg h]
  simp only
  split
  · exact ⟨rfl,rfl⟩
  · exact ⟨rfl,rfl⟩

/-- The offset is left alone, or it is the median of what the filter holds then. -/
theorem addTimeData_offset (h : c.ip ∉ s.setKnown) :
    (s.addTimeData false c).nTimeOffset =
      if considers (s.addTimeData false c).vTimeOffsets.size then
        (s.addTimeData false c).vTimeOffsets.median
      else s.nTimeOffset := by
  rw [(addTimeData_new h).2]
  unfold addTimeData
  rw [if_neg h]
  simp only
  split
  · rfl
  · rfl

theorem store_nSize (f : CMedianFilter) (v : Int) : (store f v).nSize = f.nSize := by
  unfold store
  simp only
  split
  · rfl
  · rfl

theorem store_values {f : CMedianFilter} (h : f.nSize = MEDIAN_FILTER_SIZE)
    {samples : List (Option CNetAddr × Int)} (hs : samples.map Prod.snd = f.vValues) :
    (storeSample samples c).map Prod.snd = (store f c.nStoredValue).vValues := by
  have hpush : ∀ (l : List (Option CNetAddr × Int)) x,
      (pushRecent MEDIAN_FILTER_SIZE l x).map Prod.snd =
        pushRecent MEDIAN_FILTER_SIZE (l.map Prod.snd) x.2 := fun l x => map_pushRecent _ _ _ _
  have hlen : (pushRecent MEDIAN_FILTER_SIZE samples (some c.ip,c.nStoredValue)).length =
      (pushRecent MEDIAN_FILTER_SIZE f.vValues c.nStoredValue).length := by
    rw [← hs,← hpush samples (some c.ip,c.nStoredValue),List.length_map]
  unfold storeSample store
  simp only [CMedianFilter.size,CMedianFilter.input,h,hlen]
  split
  · rw [hpush,hpush,hs]
  · rw [hpush,hs]

/-- The samples that are traced are the ones in the filter. -/
theorem traced_samples (u : Bool) (calls : List TimeCall) :
    (after u calls).vTimeOffsets.nSize = MEDIAN_FILTER_SIZE ∧
      (traced u calls).2.map Prod.snd = (after u calls).vTimeOffsets.vValues := by
  induction calls using List.reverseRecOn with
  | nil => exact ⟨rfl,rfl⟩
  | append_singleton calls c ih =>
    obtain ⟨hsize,hvalues⟩ := ih
    rw [after_snoc,traced_snoc,trace,traced_fst]
    by_cases hk : c.ip ∈ (after u calls).setKnown
    · rw [addTimeData_known hk,if_pos hk]
      exact ⟨hsize,hvalues⟩
    · rw [(addTimeData_new hk).2,store_nSize,if_neg hk]
      exact ⟨hsize,store_values hsize hvalues⟩

theorem store_size {f : CMedianFilter} (h : f.nSize = MEDIAN_FILTER_SIZE)
    (hle : f.size ≤ MEDIAN_FILTER_SIZE) (v : Int) :
    (store f v).size = if f.size = 1 then 3 else min MEDIAN_FILTER_SIZE (f.size+1) := by
  have hpos : 0 < MEDIAN_FILTER_SIZE := by decide
  have hinput : ∀ (g : CMedianFilter) v, g.nSize = MEDIAN_FILTER_SIZE →
      g.size ≤ MEDIAN_FILTER_SIZE → (g.input v).size = min MEDIAN_FILTER_SIZE (g.size+1) := by
    intro g v hg hle
    simp only [CMedianFilter.size,CMedianFilter.input,hg]
    exact length_pushRecent hpos hle v
  have hfirst := hinput f v h hle
  have hsecond := hinput (f.input v) (-MAX_ALLOWED_PEER_OFFSET) h (by omega)
  have hsize : MEDIAN_FILTER_SIZE = 199 := rfl
  unfold store
  simp only
  split <;> split <;> omega

theorem mem_store {f : CMedianFilter} {v x : Int} (h : x ∈ (store f v).vValues) :
    x ∈ f.vValues ∨ x = v ∨ x = -MAX_ALLOWED_PEER_OFFSET := by
  unfold store at h
  simp only at h
  split at h
  · rcases mem_pushRecent h with h | h
    · rcases mem_pushRecent h with h | h
      · exact .inl h
      · exact .inr (.inl h)
    · exact .inr (.inr h)
  · rcases mem_pushRecent h with h | h
    · exact .inl h
    · exact .inr (.inl h)

/-- The offset is the median of the samples when their number is odd and large enough. -/
def Follows (s : TimeData) : Prop :=
  s.vTimeOffsets.size%2 = 1 → MIN_OFFSETS_BEFORE_CONSIDERATION ≤ s.vTimeOffsets.size →
    IsMedian s.nTimeOffset s.vTimeOffsets.vValues

/-- What every call keeps: the bounds, and that the offset follows the samples as long as
the filter is not full. -/
structure Tracking (s : TimeData) : Prop where
  nSize : s.vTimeOffsets.nSize = MEDIAN_FILTER_SIZE
  size : s.vTimeOffsets.size ≤ MEDIAN_FILTER_SIZE
  values : ∀ v ∈ s.vTimeOffsets.vValues, |v| ≤ MAX_ALLOWED_PEER_OFFSET
  offset : |s.nTimeOffset| ≤ MAX_ALLOWED_PEER_OFFSET
  follows : s.vTimeOffsets.size < MEDIAN_FILTER_SIZE → s.Follows

theorem tracking_initial : Tracking initial := by
  refine ⟨rfl,by decide,?_,by decide,?_⟩
  · intro v hv
    obtain rfl := List.mem_singleton.mp hv
    decide
  · intro _ _ hmin
    contradiction

theorem considers_iff (n : Nat) :
    considers n = true ↔ n < MEDIAN_FILTER_SIZE ∧ n%2 = 1 ∧ MIN_OFFSETS_BEFORE_CONSIDERATION ≤ n := by
  simp [considers,and_assoc]

theorem Tracking.addTimeData (h : Tracking s) (c : TimeCall) : Tracking (s.addTimeData false c) := by
  by_cases hk : c.ip ∈ s.setKnown
  · rw [addTimeData_known hk]
    exact h
  · obtain ⟨-,hfilter⟩ := addTimeData_new (u := false) hk
    have hoffset := addTimeData_offset hk
    have hsize := store_size h.nSize h.size c.nStoredValue
    have hvalues : ∀ v ∈ (s.addTimeData false c).vTimeOffsets.vValues,
        |v| ≤ MAX_ALLOWED_PEER_OFFSET := by
      intro v hv
      rw [hfilter] at hv
      rcases mem_store hv with hv | rfl | rfl
      · exact h.values v hv
      · exact c.nStoredValue_bound
      · decide
    have hmedian : considers (s.addTimeData false c).vTimeOffsets.size = true →
        IsMedian (s.addTimeData false c).nTimeOffset (s.addTimeData false c).vTimeOffsets.vValues := by
      intro hcon
      rw [hoffset,if_pos hcon]
      exact CMedianFilter.isMedian_median ((considers_iff _).mp hcon).2.1
    refine ⟨by rw [hfilter,store_nSize]; exact h.nSize,?_,hvalues,?_,?_⟩
    · rw [hfilter,hsize]
      split
      · decide
      · exact Nat.min_le_left _ _
    · by_cases hcon : considers (s.addTimeData false c).vTimeOffsets.size = true
      · exact hvalues _ (hmedian hcon).mem
      · rw [hoffset,if_neg hcon]
        exact h.offset
    · intro hlt hodd hmin
      exact hmedian ((considers_iff _).mpr ⟨hlt,hodd,hmin⟩)

theorem tracking_after (calls : List TimeCall) : Tracking (after false calls) := by
  induction calls using List.reverseRecOn with
  | nil => exact tracking_initial
  | append_singleton calls c ih =>
    rw [after_snoc]
    exact ih.addTimeData c

theorem size_after_le (calls : List TimeCall) :
    (after false calls).vTimeOffsets.size ≤ calls.length+2 := by
  induction calls using List.reverseRecOn with
  | nil => decide
  | append_singleton calls c ih =>
    have h := tracking_after calls
    rw [after_snoc,List.length_append,List.length_singleton]
    by_cases hk : c.ip ∈ (after false calls).setKnown
    · rw [addTimeData_known hk]
      omega
    · rw [(addTimeData_new hk).2,store_size h.nSize h.size]
      split
      · omega
      · omega

theorem remember_subset (setKnown : Finset CNetAddr) (ip : CNetAddr) :
    remember setKnown ip ⊆ insert ip setKnown := by
  unfold remember eraseBegin
  simp only
  split
  · split
    · exact Finset.erase_subset _ _
    · exact Finset.Subset.refl _
  · exact Finset.Subset.refl _

theorem known_called {a : CNetAddr} (h : a ∈ (after u calls).setKnown) :
    a ∈ calls.map TimeCall.ip := by
  induction calls using List.reverseRecOn with
  | nil => exact absurd h (Finset.notMem_empty a)
  | append_singleton calls c ih =>
    rw [after_snoc] at h
    rw [List.map_append,List.mem_append]
    by_cases hk : c.ip ∈ (after u calls).setKnown
    · rw [addTimeData_known hk] at h
      exact .inl (ih h)
    · rw [(addTimeData_new hk).1] at h
      rcases Finset.mem_insert.mp (remember_subset _ _ h) with rfl | h
      · exact .inr (by simp)
      · exact .inl (ih h)

/-- A peer that has not called before is not known. -/
theorem snoc_unknown (h : ((calls ++ [c]).map TimeCall.ip).Nodup) :
    c.ip ∉ (after u calls).setKnown ∧ (calls.map TimeCall.ip).Nodup := by
  rw [List.map_append,List.nodup_append] at h
  refine ⟨fun hk => ?_,h.1⟩
  exact h.2.2 _ (known_called hk) c.ip (by simp) rfl

/-- The samples of different peers, while there is room for all of them. -/
theorem samples_of_nodup (h : ((c :: calls).map TimeCall.ip).Nodup)
    (hlen : calls.length+3 ≤ MEDIAN_FILTER_SIZE) :
    (traced u (c :: calls)).2 =
      (none,MAX_ALLOWED_PEER_OFFSET) :: (some c.ip,c.nStoredValue) ::
        (none,-MAX_ALLOWED_PEER_OFFSET) :: calls.map fun c => (some c.ip,c.nStoredValue) := by
  induction calls using List.reverseRecOn with
  | nil => rfl
  | append_singleton calls d ih =>
    rw [← List.cons_append] at h ⊢
    rw [List.length_append,List.length_singleton] at hlen
    obtain ⟨hk,hnodup⟩ := snoc_unknown (u := u) h
    rw [traced_snoc,trace,traced_fst,if_neg hk,ih hnodup (by omega),storeSample,
      pushRecent_of_lt (by simp only [List.length_cons,List.length_map]; omega),
      if_neg (by simp)]
    simp

theorem values_of_nodup (h : ((c :: calls).map TimeCall.ip).Nodup)
    (hlen : calls.length+3 ≤ MEDIAN_FILTER_SIZE) :
    (after u (c :: calls)).vTimeOffsets.vValues =
      MAX_ALLOWED_PEER_OFFSET :: c.nStoredValue :: -MAX_ALLOWED_PEER_OFFSET ::
        calls.map TimeCall.nStoredValue := by
  rw [← (traced_samples u (c :: calls)).2,samples_of_nodup h hlen]
  simp

section Drift

/-- Peers with different IPv4 addresses. -/
def peer (i : Nat) : CNetAddr :=
  ⟨pchIPv4 ++ [5,6,UInt8.ofNat (i/256),UInt8.ofNat i],
    List.replicate I2P_DESTINATION_STORE 0,rfl,CNetAddr.noDestination_length⟩

theorem peer_inj {i j : Nat} (hi : i < 256) (hj : j < 256) (h : peer i = peer j) : i = j := by
  have hip : (peer i).ip.getD 15 0 = (peer j).ip.getD 15 0 := by rw [h]
  have hbyte : UInt8.ofNat i = UInt8.ofNat j := hip
  have hnat := congrArg UInt8.toNat hbyte
  simp only [UInt8.toNat_ofNat'] at hnat
  omega

theorem peer_zero_le {i : Nat} (hi : i < 100) : peer 0 ≤ peer i := by
  have hip : ∀ i < 100, (peer 0).ip.map UInt8.toNat ≤ (peer i).ip.map UInt8.toNat := by
    decide +kernel
  show CNetAddr.memKey (peer 0) ≤ CNetAddr.memKey (peer i)
  rw [CNetAddr.memKey,CNetAddr.memKey,Prod.Lex.toLex_le_toLex]
  rcases lt_or_eq_of_le (hip i hi) with hlt | heq
  · exact .inl hlt
  · exact .inr ⟨heq,le_refl _⟩

/-- The first 98 peers agree with the clock, the next 99 are ahead of it. -/
def driftCall (i : Nat) : TimeCall := ⟨peer i,if i < 98 then 0 else 100,0⟩

def driftCalls (n : Nat) : List TimeCall := (List.range n).map driftCall

theorem driftCalls_nodup {n : Nat} (h : n ≤ 256) : ((driftCalls n).map TimeCall.ip).Nodup := by
  rw [driftCalls,List.map_map]
  refine (List.nodup_map_iff_inj_on List.nodup_range).mpr ?_
  intro i hi j hj hij
  rw [List.mem_range] at hi hj
  exact peer_inj (by omega) (by omega) hij

theorem driftCalls_succ (n : Nat) : driftCalls (n+1) = driftCalls n ++ [driftCall n] := by
  simp [driftCalls,List.range_succ]

theorem driftCalls_values {m n : Nat} (hm : m = n+1) (h : n+3 ≤ MEDIAN_FILTER_SIZE) :
    (after false (driftCalls m)).vTimeOffsets.vValues =
      900 :: 0 :: -900 :: (List.range n).map fun i => if i < 97 then 0 else 100 := by
  subst hm
  have hcons : driftCalls (n+1) = driftCall 0 :: (List.range n).map fun i => driftCall (i+1) := by
    simp [driftCalls,List.range_succ_eq_map]
  have hsize : MEDIAN_FILTER_SIZE = 199 := rfl
  have hnodup := driftCalls_nodup (n := n+1) (by omega)
  rw [hcons] at hnodup ⊢
  rw [values_of_nodup hnodup (by simpa using h),List.map_map]
  have hvalue : ∀ i, (TimeCall.nStoredValue ∘ fun i => driftCall (i+1)) i =
      if i < 97 then 0 else 100 := by
    intro i
    simp only [Function.comp_apply,driftCall]
    by_cases hi : i < 97
    · rw [if_pos hi,if_pos (by omega)]
      rfl
    · rw [if_neg hi,if_neg (by omega)]
      rfl
  rw [List.map_congr_left fun i _ => hvalue i]
  rfl

/-- The offset of the first 197 samples stays when the filter gets full. -/
theorem driftCalls_offset : (after false (driftCalls 197)).nTimeOffset = 0 := by
  have hstep : ∀ n, n < 197 → considers (after false (driftCalls (n+1))).vTimeOffsets.size = false →
      (after false (driftCalls (n+1))).nTimeOffset = (after false (driftCalls n)).nTimeOffset := by
    intro n hn hcon
    have hk := (snoc_unknown (u := false)
      (driftCalls_succ n ▸ driftCalls_nodup (n := n+1) (by omega))).1
    rw [driftCalls_succ,after_snoc] at hcon ⊢
    rw [addTimeData_offset hk,hcon]
    rfl
  have hsize : ∀ n, n+3 ≤ MEDIAN_FILTER_SIZE →
      (after false (driftCalls (n+1))).vTimeOffsets.size = n+3 := by
    intro n hn
    rw [CMedianFilter.size,driftCalls_values rfl hn]
    simp
  have hfollows := (tracking_after (driftCalls 195)).follows (by rw [hsize 194 (by decide)]; decide)
    (by rw [hsize 194 (by decide)]) (by rw [hsize 194 (by decide)]; decide)
  rw [driftCalls_values (show 195 = 194+1 from rfl) (by decide)] at hfollows
  have hzero : IsMedian (0 : Int)
      (900 :: 0 :: -900 :: (List.range 194).map fun i => if i < 97 then 0 else 100) :=
    ⟨by decide,by decide +kernel,by decide +kernel⟩
  rw [hstep 196 (by decide) (by rw [hsize 196 (by decide)]; decide),
    hstep 195 (by decide) (by rw [hsize 195 (by decide)]; decide)]
  exact hfollows.unique hzero (by simp)

theorem driftCalls_not_follows : ¬(after false (driftCalls 197)).Follows := by
  intro h
  have hvalues := driftCalls_values (show 197 = 196+1 from rfl) (by decide)
  have hsize : (after false (driftCalls 197)).vTimeOffsets.size = 199 := by
    rw [CMedianFilter.size,hvalues]
    simp
  have hmedian := h (by rw [hsize]) (by rw [hsize]; decide)
  rw [driftCalls_offset,hvalues] at hmedian
  exact absurd hmedian.above (by decide +kernel)

end Drift

/-- With any number of calls the offset stays within the bounds. With up to 196 calls from
different peers it is the median of the samples whenever their number is odd and at least
seven; the next call fills the filter, and from then on the offset is not updated. -/
theorem offset_follows_iff (n : Nat) :
    (∀ calls, |(after false calls).nTimeOffset| ≤ MAX_ALLOWED_PEER_OFFSET) ∧
    ((∀ calls, calls.length ≤ n → (calls.map TimeCall.ip).Nodup → (after false calls).Follows) ↔
      n ≤ 196) := by
  refine ⟨fun calls => (tracking_after calls).offset,?_,?_⟩
  · intro h
    by_contra hn
    exact driftCalls_not_follows
      (h (driftCalls 197) (by simp [driftCalls]; omega) (driftCalls_nodup (by decide)))
  · intro hn calls hlen _
    have hsize := size_after_le calls
    have hfull : MEDIAN_FILTER_SIZE = 199 := rfl
    exact (tracking_after calls).follows (by omega)

theorem offset_not_median_when_full :
    ¬∀ calls, (calls.map TimeCall.ip).Nodup → (after false calls).Follows := by
  intro h
  exact driftCalls_not_follows (h (driftCalls 197) (driftCalls_nodup (by decide)))

/-- How many of the samples in the filter came from the peer. -/
def votes (fUTCisKnown : Bool) (calls : List TimeCall) (ip : CNetAddr) : Nat :=
  (traced fUTCisKnown calls).2.countP fun sample => sample.1 == some ip

/-- A call adds at most one vote, and only when its peer was not known. -/
theorem votes_snoc_le (u : Bool) (calls : List TimeCall) (c : TimeCall) (ip : CNetAddr) :
    votes u (calls ++ [c]) ip ≤ votes u calls ip+
      if c.ip = ip ∧ c.ip ∉ (after u calls).setKnown then 1 else 0 := by
  unfold votes
  rw [traced_snoc,trace,traced_fst]
  simp only
  split
  · exact Nat.le_add_right _ _
  · next hk =>
    have hseed : ∀ l : List (Option CNetAddr × Int),
        (pushRecent MEDIAN_FILTER_SIZE l (none,-MAX_ALLOWED_PEER_OFFSET)).countP
          (fun sample => sample.1 == some ip) ≤ l.countP fun sample => sample.1 == some ip := by
      intro l
      simpa using countP_pushRecent_le (fun sample => sample.1 == some ip) MEDIAN_FILTER_SIZE l
        (none,-MAX_ALLOWED_PEER_OFFSET)
    have hpush := countP_pushRecent_le (fun sample => sample.1 == some ip) MEDIAN_FILTER_SIZE
      (traced u calls).2 (some c.ip,c.nStoredValue)
    have hone : ([(some c.ip,c.nStoredValue)].countP fun sample : Option CNetAddr × Int =>
        sample.1 == some ip) = if c.ip = ip ∧ c.ip ∉ (after u calls).setKnown then 1 else 0 := by
      simp [hk]
    rw [hone] at hpush
    unfold storeSample
    simp only
    split
    · exact Nat.le_trans (hseed _) hpush
    · exact hpush

section Few
variable {peers : Finset CNetAddr}

theorem remember_of_le {setKnown : Finset CNetAddr} {ip : CNetAddr}
    (h : (insert ip setKnown).card ≤ MEDIAN_FILTER_SIZE/2) :
    remember setKnown ip = insert ip setKnown := by
  unfold remember
  simp only
  rw [if_neg (by omega)]

/-- Up to 99 peers are all remembered. -/
theorem known_eq (h : calls.map TimeCall.ip ⊆ peers.toList)
    (hcard : peers.card ≤ MEDIAN_FILTER_SIZE/2) :
    (after u calls).setKnown = (calls.map TimeCall.ip).toFinset := by
  induction calls using List.reverseRecOn with
  | nil => rfl
  | append_singleton calls c ih =>
    rw [List.map_append,List.append_subset] at h
    have hknown := ih h.1
    rw [after_snoc,List.map_append,List.toFinset_append,← hknown]
    by_cases hk : c.ip ∈ (after u calls).setKnown
    · rw [addTimeData_known hk]
      simp [Finset.insert_eq_of_mem hk]
    · have hsub : insert c.ip (after u calls).setKnown ⊆ peers := by
        intro a ha
        rcases Finset.mem_insert.mp ha with rfl | ha
        · exact Finset.mem_toList.mp (h.2 (by simp))
        · exact Finset.mem_toList.mp (h.1 (known_called ha))
      rw [(addTimeData_new hk).1,remember_of_le (Nat.le_trans (Finset.card_le_card hsub) hcard)]
      rw [Finset.insert_eq,Finset.union_comm]
      simp

theorem votes_le_one (h : calls.map TimeCall.ip ⊆ peers.toList)
    (hcard : peers.card ≤ MEDIAN_FILTER_SIZE/2) (ip : CNetAddr) :
    votes u calls ip ≤ 1 ∧ (0 < votes u calls ip → ip ∈ (after u calls).setKnown) := by
  induction calls using List.reverseRecOn with
  | nil =>
    have hnone : votes u [] ip = 0 := rfl
    omega
  | append_singleton calls c ih =>
    have hbefore := h
    rw [List.map_append,List.append_subset] at hbefore
    obtain ⟨hone,hknown⟩ := ih hbefore.1
    have hle := votes_snoc_le u calls c ip
    rw [known_eq h hcard,List.map_append,List.toFinset_append,← known_eq hbefore.1 hcard (u := u)]
    split at hle
    · next hc =>
      obtain ⟨rfl,hnew⟩ := hc
      have hzero : votes u calls c.ip = 0 := Nat.eq_zero_of_not_pos fun hpos => hnew (hknown hpos)
      exact ⟨by omega,fun _ => by simp⟩
    · refine ⟨by omega,fun hpos => ?_⟩
      rw [Finset.mem_union]
      exact .inl (hknown (by omega))

end Few

section Many
variable {peers : Finset CNetAddr}

/-- One call from each peer. -/
def poll (ips : List CNetAddr) : List TimeCall := ips.map fun ip => ⟨ip,0,0⟩

theorem poll_ips (ips : List CNetAddr) : (poll ips).map TimeCall.ip = ips := by
  simp [poll,Function.comp_def]

/-- After a call from each of a hundred peers, the first in the order of the set is
forgotten. -/
theorem first_forgotten (u : Bool) {front : List CNetAddr} {ip first : CNetAddr}
    (hnodup : (front ++ [ip]).Nodup) (hlen : front.length = MEDIAN_FILTER_SIZE/2)
    (hmem : first ∈ front ++ [ip]) (hmin : ∀ a ∈ front ++ [ip], first ≤ a) :
    first ∉ (after u (poll (front ++ [ip]))).setKnown := by
  have hfront : (after u (poll front)).setKnown = front.toFinset := by
    have hsub : (poll front).map TimeCall.ip ⊆ front.toFinset.toList := by
      intro a ha
      rw [poll_ips] at ha
      simpa using ha
    rw [known_eq hsub (hlen ▸ List.toFinset_card_le front),poll_ips]
  have hnew : ip ∉ front.toFinset := by
    rw [List.mem_toFinset]
    exact fun h => (List.nodup_append.mp hnodup).2.2 ip h ip (by simp) rfl
  have hcard : (insert ip front.toFinset).card = MEDIAN_FILTER_SIZE/2+1 := by
    rw [Finset.card_insert_of_notMem hnew,List.toFinset_card_of_nodup (List.nodup_append.mp hnodup).1,
      hlen]
  have hsome : (insert ip front.toFinset).Nonempty := Finset.insert_nonempty _ _
  have hfirst : (insert ip front.toFinset).min' hsome = first := by
    apply le_antisymm
    · exact Finset.min'_le _ _ (by simpa [or_comm] using hmem)
    · exact hmin _ (by simpa [or_comm] using Finset.min'_mem _ hsome)
  have hsnoc : poll (front ++ [ip]) = poll front ++ [⟨ip,0,0⟩] := by simp [poll]
  rw [hsnoc,after_snoc,(addTimeData_new (hfront ▸ hnew)).1,hfront,remember]
  simp only
  rw [if_pos (by omega),eraseBegin,dif_pos hsome,hfirst]
  exact Finset.notMem_erase _ _

theorem votes_pos {ips : List CNetAddr} (hnodup : ips.Nodup) (hlen : ips.length+2 ≤ MEDIAN_FILTER_SIZE)
    {ip : CNetAddr} (hmem : ip ∈ ips) :
    0 < votes u (poll ips) ip ∧ (traced u (poll ips)).2.length = ips.length+2 := by
  cases ips with
  | nil => simp at hmem
  | cons a rest =>
    rw [List.length_cons] at hlen
    have hips : ((⟨a,0,0⟩ :: poll rest).map TimeCall.ip).Nodup := by
      rw [← poll_ips (a :: rest)] at hnodup
      exact hnodup
    have hsamples := samples_of_nodup (u := u) hips (by simp [poll]; omega)
    have hpoll : poll (a :: rest) = ⟨a,0,0⟩ :: poll rest := rfl
    rw [votes,hpoll,hsamples]
    refine ⟨?_,by simp [poll]⟩
    rw [List.countP_pos_iff]
    rcases List.mem_cons.mp hmem with rfl | hmem
    · exact ⟨(some ip,TimeCall.nStoredValue ⟨ip,0,0⟩),by simp,by simp⟩
    · refine ⟨(some ip,TimeCall.nStoredValue ⟨ip,0,0⟩),?_,by simp⟩
      simp only [List.mem_cons,poll,List.map_map,List.mem_map]
      exact .inr (.inr (.inr ⟨ip,hmem,rfl⟩))

/-- A hundred peers are enough for one of them to vote twice. -/
theorem two_votes (u : Bool) {front : List CNetAddr} {ip first : CNetAddr}
    (hnodup : (front ++ [ip]).Nodup) (hlen : front.length = MEDIAN_FILTER_SIZE/2)
    (hmem : first ∈ front ++ [ip]) (hmin : ∀ a ∈ front ++ [ip], first ≤ a) :
    1 < votes u (poll (front ++ [ip] ++ [first])) first := by
  have hforgot := first_forgotten u hnodup hlen hmem hmin
  have hsize : MEDIAN_FILTER_SIZE = 199 := rfl
  obtain ⟨hpos,hsamples⟩ := votes_pos (u := u) hnodup (by simp; omega) hmem
  have hsnoc : poll (front ++ [ip] ++ [first]) = poll (front ++ [ip]) ++ [⟨first,0,0⟩] := by
    simp [poll]
  rw [List.length_append,List.length_singleton] at hsamples
  rw [votes,hsnoc,traced_snoc,trace,traced_fst,if_neg hforgot,storeSample,
    pushRecent_of_lt (by omega),if_neg (by simp; omega),List.countP_append]
  simp only [List.countP_singleton,beq_self_eq_true,if_true]
  exact Nat.succ_lt_succ hpos

end Many

/-- Whatever calls a set of peers make, no peer has two samples in the filter at any time, if
and only if there are at most 99 peers. -/
theorem one_vote_iff (peers : Finset CNetAddr) :
    (∀ u calls, (∀ c ∈ calls, c.ip ∈ peers) → ∀ ip, votes u calls ip ≤ 1) ↔
      peers.card ≤ MEDIAN_FILTER_SIZE/2 := by
  constructor
  · intro h
    by_contra hcard
    obtain ⟨few,hsub,hfew⟩ := Finset.exists_subset_card_eq (show MEDIAN_FILTER_SIZE/2+1 ≤ peers.card
      by omega)
    obtain ⟨front,ip,hlist⟩ := List.eq_nil_or_concat few.toList |>.resolve_left
      (List.ne_nil_of_length_eq_add_one (by rw [Finset.length_toList,hfew]))
    rw [List.concat_eq_append] at hlist
    have hlen : front.length = MEDIAN_FILTER_SIZE/2 := by
      have hlength := congrArg List.length hlist
      rw [Finset.length_toList,hfew,List.length_append,List.length_singleton] at hlength
      omega
    have hin : ∀ a, a ∈ front ++ [ip] ↔ a ∈ few := by
      intro a
      rw [← hlist,Finset.mem_toList]
    have hsome : few.Nonempty := Finset.card_pos.mp (by omega)
    have hfirst := Finset.min'_mem few hsome
    have htwo := two_votes false (hlist ▸ few.nodup_toList) hlen ((hin _).mpr hfirst) fun a ha =>
      Finset.min'_le few a ((hin a).mp ha)
    have hcalls : ∀ c ∈ poll (front ++ [ip] ++ [few.min' hsome]), c.ip ∈ peers := by
      intro c hc
      have hip : c.ip ∈ front ++ [ip] ++ [few.min' hsome] := by
        rw [← poll_ips (front ++ [ip] ++ [few.min' hsome])]
        exact List.mem_map_of_mem hc
      rcases List.mem_append.mp hip with hip | hip
      · exact hsub ((hin _).mp hip)
      · rw [List.mem_singleton.mp hip]
        exact hsub hfirst
    have hone := h false _ hcalls (few.min' hsome)
    omega
  · intro hcard u calls hcalls ip
    refine (votes_le_one ?_ hcard ip).1
    intro a ha
    obtain ⟨c,hc,rfl⟩ := List.mem_map.mp ha
    exact Finset.mem_toList.mpr (hcalls c hc)

theorem peer_votes_twice :
    ¬votes false (poll ((List.range 99).map peer ++ [peer 99] ++ [peer 0])) (peer 0) ≤ 1 := by
  have hlist : (List.range 99).map peer ++ [peer 99] = (List.range 100).map peer := by
    rw [List.range_succ,List.map_append]
    rfl
  have hnodup : ((List.range 99).map peer ++ [peer 99]).Nodup := by
    rw [hlist,List.nodup_map_iff_inj_on List.nodup_range]
    intro i hi j hj hij
    rw [List.mem_range] at hi hj
    exact peer_inj (by omega) (by omega) hij
  have hmin : ∀ a ∈ (List.range 99).map peer ++ [peer 99], peer 0 ≤ a := by
    rw [hlist]
    intro a ha
    obtain ⟨i,hi,rfl⟩ := List.mem_map.mp ha
    exact peer_zero_le (List.mem_range.mp hi)
  have hmem : peer 0 ∈ (List.range 99).map peer ++ [peer 99] := by
    rw [hlist]
    exact List.mem_map_of_mem (by simp)
  have htwo := two_votes false hnodup (by rw [List.length_map,List.length_range]; rfl) hmem hmin
  omega

end TimeData

end Anoncoin
