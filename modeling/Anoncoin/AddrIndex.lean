import Anoncoin.AddrInvariant

/-!
The index of I2P destinations in the address manager: what adding and deleting an entry does
to it.
-/

set_option autoImplicit false

namespace Anoncoin
open Lib

namespace CAddrMan

/-- `mapI2pHashes` sends the hash of each I2P destination in the manager to its entry. -/
def HashesExact (H : AddrHashes) (m : CAddrMan) : Prop :=
  ∀ b32hash nId, m.mapI2pHashes.lookup b32hash = some nId ↔
    ∃ info, m.mapInfo.lookup nId = some info ∧ info.isI2P = true ∧
      H.getI2pDestinationHash info.getI2pDestination = b32hash

/-- No entry has the hash of this destination. -/
def HashFree (H : AddrHashes) (m : CAddrMan) (addr : CNetAddr) : Prop :=
  ∀ nId info, m.mapInfo.lookup nId = some info → info.isI2P = true →
    H.getI2pDestinationHash info.getI2pDestination ≠ H.getI2pDestinationHash addr.getI2pDestination

section Index
variable {H : AddrHashes} {m m' : CAddrMan} {nId : Nat} {info info' : CAddrInfo}

/-- The index depends on the addresses of the entries only. -/
theorem HashesExact.congr (h : m.HashesExact H) (hmap : m'.mapI2pHashes = m.mapI2pHashes)
    (hsame : ∀ j, (m'.mapInfo.lookup j).map (fun x => x.toCNetAddr) =
      (m.mapInfo.lookup j).map fun x => x.toCNetAddr) : m'.HashesExact H := by
  intro b32hash j
  rw [hmap,h b32hash j]
  have hj := hsame j
  cases hm : m.mapInfo.lookup j with
  | none =>
    rw [hm,Option.map_none,Option.map_eq_none_iff] at hj
    simp [hj]
  | some x =>
    rw [hm,Option.map_some] at hj
    obtain ⟨y,hy,haddr⟩ := Option.map_eq_some_iff.mp hj
    simp [hy,haddr]

theorem HashesExact.setInfo (h : m.HashesExact H) (hl : m.mapInfo.lookup nId = some info)
    (info' : CAddrInfo) (haddr : info'.toCNetAddr = info.toCNetAddr) : (m.setInfo nId info').HashesExact H := by
  refine h.congr rfl fun j => ?_
  rw [lookup_setInfo]
  by_cases hj : j = nId
  · subst hj
    simp [hl,haddr]
  · simp [hj]

/-- `CheckAndDeleteB32Hash` takes the entry out of an exact index. -/
theorem HashesExact.lookup_checkAndDelete (h : m.HashesExact H)
    (hl : m.mapInfo.lookup nId = some info) (b32hash : Uint256) (j : Nat) :
    (m.checkAndDeleteB32Hash H nId info).mapI2pHashes.lookup b32hash = some j ↔
      j ≠ nId ∧ m.mapI2pHashes.lookup b32hash = some j := by
  unfold checkAndDeleteB32Hash
  by_cases hi : info.isI2P = true
  · have hthis := (h (H.getI2pDestinationHash info.getI2pDestination) nId).mpr ⟨info,hl,hi,rfl⟩
    rw [if_pos hi]
    dsimp only
    rw [if_pos hthis]
    by_cases hb : b32hash = H.getI2pDestinationHash info.getI2pDestination
    · subst hb
      rw [hthis]
      simp [eq_comm]
    · rw [AList.lookup_erase_ne hb]
      refine ⟨fun hj => ⟨?_,hj⟩,fun hj => hj.2⟩
      rintro rfl
      obtain ⟨x,hx,-,hhash⟩ := (h b32hash j).mp hj
      rw [hl] at hx
      rw [← Option.some.inj hx] at hhash
      exact hb hhash.symm
  · rw [if_neg hi]
    refine ⟨fun hj => ⟨?_,hj⟩,fun hj => hj.2⟩
    rintro rfl
    obtain ⟨x,hx,hxi,-⟩ := (h b32hash j).mp hj
    rw [hl] at hx
    rw [← Option.some.inj hx] at hxi
    exact hi hxi

theorem HashesExact.forget (h : m.HashesExact H) (hl : m.mapInfo.lookup nId = some info)
    (hmap : m'.mapI2pHashes = (m.checkAndDeleteB32Hash H nId info).mapI2pHashes)
    (hsame : ∀ j, (m'.mapInfo.lookup j).map CAddrInfo.strip =
      if j = nId then none else (m.mapInfo.lookup j).map CAddrInfo.strip) : m'.HashesExact H := by
  intro b32hash j
  rw [hmap,h.lookup_checkAndDelete hl,h b32hash j]
  have hj := hsame j
  by_cases hid : j = nId
  · rw [if_pos hid,Option.map_eq_none_iff] at hj
    subst hid
    simp [hj]
  · rw [if_neg hid] at hj
    cases hm : m.mapInfo.lookup j with
    | none =>
      rw [hm,Option.map_none,Option.map_eq_none_iff] at hj
      simp [hj]
    | some x =>
      rw [hm,Option.map_some] at hj
      obtain ⟨y,hy,hstrip⟩ := Option.map_eq_some_iff.mp hj
      have haddr := CAddrInfo.addr_of_strip hstrip
      simp [hy,haddr,hid]

theorem HashesExact.lookup_none (h : m.HashesExact H) {addr : CNetAddr} (hfree : m.HashFree H addr) :
    m.mapI2pHashes.lookup (H.getI2pDestinationHash addr.getI2pDestination) = none := by
  cases hj : m.mapI2pHashes.lookup (H.getI2pDestinationHash addr.getI2pDestination) with
  | none => rfl
  | some j =>
    obtain ⟨x,hx,hxi,hhash⟩ := (h _ j).mp hj
    exact absurd hhash (hfree j x hx hxi)

/-- A new entry is indexed if it is an I2P destination whose hash is not there yet. -/
theorem HashesExact.insert (h : m.HashesExact H) (hnew : m.mapInfo.lookup nId = none)
    (hfree : info.isI2P = true → m.HashFree H info.toCNetAddr)
    (hmap : m'.mapI2pHashes = m.mapI2pHashes)
    (hlookup : ∀ j, m'.mapInfo.lookup j = if j = nId then some info else m.mapInfo.lookup j) :
    HashesExact H (if info.isI2P then m'.indexHash H info.toCNetAddr nId else m') := by
  intro b32hash j
  by_cases hi : info.isI2P = true
  · have habsent := h.lookup_none (hfree hi)
    have hindexed : (m'.indexHash H info.toCNetAddr nId).mapI2pHashes =
        m.mapI2pHashes.insert (H.getI2pDestinationHash info.getI2pDestination) nId := by
      rw [indexHash,hmap]
      simp [habsent]
    rw [if_pos hi,hindexed,indexHash_eq,hlookup]
    by_cases hb : b32hash = H.getI2pDestinationHash info.getI2pDestination
    · subst hb
      rw [AList.lookup_insert]
      by_cases hj : j = nId
      · simp [hj,hi]
      · rw [if_neg hj]
        refine ⟨fun he => absurd (Option.some.inj he).symm hj,?_⟩
        rintro ⟨x,hx,hxi,hhash⟩
        exact absurd hhash (hfree hi j x hx hxi)
    · rw [AList.lookup_insert_ne hb,h b32hash j]
      by_cases hj : j = nId
      · subst hj
        simp [hnew,Ne.symm hb]
      · rw [if_neg hj]
  · rw [if_neg hi,hmap,hlookup,h b32hash j]
    by_cases hj : j = nId
    · subst hj
      simp [hnew,hi]
    · rw [if_neg hj]

end Index

end CAddrMan

end Anoncoin
