import Mathlib.Data.List.Lex
import Mathlib.Data.Prod.Lex
import Anoncoin.Serialize

/-!
The network addresses of netbase.cpp: an IPv6 address with room for an I2P destination,
how addresses are classified, ordered and grouped, and the key of an address with a port.
-/

set_option autoImplicit false

namespace Anoncoin

abbrev Uint16 := BitVec 16

def I2P_DESTINATION_STORE : Nat := 516

/-- `ip` is in network byte order. -/
structure CNetAddr where
  ip : List UInt8
  i2pDest : List UInt8
  ip_length : ip.length = 16
  dest_length : i2pDest.length = I2P_DESTINATION_STORE
  deriving DecidableEq, Repr

inductive NetworkClass where
  | unroutable
  | ipv4
  | ipv6
  | tor
  | i2p
  deriving DecidableEq, Repr

def NetworkClass.byte : NetworkClass → UInt8
  | .unroutable => 0
  | .ipv4 => 1
  | .ipv6 => 2
  | .tor => 3
  | .i2p => 4

def pchIPv4 : List UInt8 := [0,0,0,0,0,0,0,0,0,0,0xff,0xff]

def pchOnionCat : List UInt8 := [0xFD,0x87,0xD8,0x7E,0xEB,0x43]

def pchGarlicCat : List UInt8 := [0xFD,0x60,0xDB,0x4D,0xDD,0xB5]

namespace CNetAddr

theorem noDestination_length :
    (List.replicate I2P_DESTINATION_STORE (0 : UInt8)).length = I2P_DESTINATION_STORE :=
  List.length_replicate

theorem garlicIp_length : (pchGarlicCat ++ List.replicate 10 0).length = 16 := rfl

/-- `Init`. -/
def unset : CNetAddr :=
  ⟨List.replicate 16 0,List.replicate I2P_DESTINATION_STORE 0,List.length_replicate,
    noDestination_length⟩

/-- `memcmp(ip, pch, sizeof(pch)) == 0`. -/
def startsWith (a : CNetAddr) (pch : List UInt8) : Bool := a.ip.take pch.length == pch

def getByte (a : CNetAddr) (n : Nat) : UInt8 := a.ip.getD (15-n) 0

def isIPv4 (a : CNetAddr) : Bool := a.startsWith pchIPv4

def isTor (a : CNetAddr) : Bool := a.startsWith pchOnionCat

def isI2P (a : CNetAddr) : Bool := a.startsWith pchGarlicCat

def isRFC1918 (a : CNetAddr) : Bool :=
  a.isIPv4 && (a.getByte 3 == 10 || (a.getByte 3 == 192 && a.getByte 2 == 168) ||
    (a.getByte 3 == 172 && (16 ≤ a.getByte 2 && a.getByte 2 ≤ 31)))

def isRFC2544 (a : CNetAddr) : Bool :=
  a.isIPv4 && a.getByte 3 == 198 && (a.getByte 2 == 18 || a.getByte 2 == 19)

def isRFC3927 (a : CNetAddr) : Bool := a.isIPv4 && (a.getByte 3 == 169 && a.getByte 2 == 254)

def isRFC6598 (a : CNetAddr) : Bool :=
  a.isIPv4 && a.getByte 3 == 100 && 64 ≤ a.getByte 2 && a.getByte 2 ≤ 127

def isRFC5737 (a : CNetAddr) : Bool :=
  a.isIPv4 && ((a.getByte 3 == 192 && a.getByte 2 == 0 && a.getByte 1 == 2) ||
    (a.getByte 3 == 198 && a.getByte 2 == 51 && a.getByte 1 == 100) ||
    (a.getByte 3 == 203 && a.getByte 2 == 0 && a.getByte 1 == 113))

def isRFC3849 (a : CNetAddr) : Bool :=
  a.getByte 15 == 0x20 && a.getByte 14 == 0x01 && a.getByte 13 == 0x0D && a.getByte 12 == 0xB8

def isRFC3964 (a : CNetAddr) : Bool := a.getByte 15 == 0x20 && a.getByte 14 == 0x02

def isRFC6052 (a : CNetAddr) : Bool := a.startsWith [0,0x64,0xFF,0x9B,0,0,0,0,0,0,0,0]

def isRFC4380 (a : CNetAddr) : Bool :=
  a.getByte 15 == 0x20 && a.getByte 14 == 0x01 && a.getByte 13 == 0 && a.getByte 12 == 0

def isRFC4862 (a : CNetAddr) : Bool := a.startsWith [0xFE,0x80,0,0,0,0,0,0]

def isRFC4193 (a : CNetAddr) : Bool := a.getByte 15 &&& 0xFE == 0xFC

def isRFC6145 (a : CNetAddr) : Bool := a.startsWith [0,0,0,0,0,0,0,0,0xFF,0xFF,0,0]

def isRFC4843 (a : CNetAddr) : Bool :=
  a.getByte 15 == 0x20 && a.getByte 14 == 0x01 && a.getByte 13 == 0x00 &&
    a.getByte 12 &&& 0xF0 == 0x10

/-- A destination that starts with a byte and ends in `AAAA`. -/
def isNativeI2P (a : CNetAddr) : Bool :=
  a.i2pDest.headD 0 != 0 && a.i2pDest.drop (I2P_DESTINATION_STORE-4) == [65,65,65,65]

def getI2pDestination (a : CNetAddr) : List UInt8 := if a.isNativeI2P then a.i2pDest else []

/-- The address, and whether it was changed. -/
def checkAndSetGarlicCat (a : CNetAddr) : CNetAddr × Bool :=
  if a.isNativeI2P && !a.isI2P then
    ({ a with ip := pchGarlicCat ++ List.replicate 10 0, ip_length := garlicIp_length },true)
  else (a,false)

/-- After that an address with a destination is marked as one. -/
theorem isI2P_of_native {a : CNetAddr} (h : a.checkAndSetGarlicCat.1.isNativeI2P = true) :
    a.checkAndSetGarlicCat.1.isI2P = true := by
  unfold checkAndSetGarlicCat at h ⊢
  split
  · rfl
  · next hc =>
    rw [if_neg hc] at h
    simpa [h] using hc

def isLocal (a : CNetAddr) : Bool :=
  (a.isIPv4 && (a.getByte 3 == 127 || a.getByte 3 == 0)) ||
    a.ip == [0,0,0,0,0,0,0,0,0,0,0,0,0,0,0,1]

def isValid (a : CNetAddr) : Bool :=
  if a.isI2P then a.isNativeI2P
  else if a.startsWith (pchIPv4.drop 3) then false
  else if a.ip == List.replicate 16 0 then false
  else if a.isRFC3849 then false
  else if a.isIPv4 && (a.ip.drop 12 == [0xff,0xff,0xff,0xff] || a.ip.drop 12 == [0,0,0,0]) then false
  else true

def isRoutable (a : CNetAddr) : Bool :=
  a.isValid && !(a.isRFC1918 || a.isRFC2544 || a.isRFC3927 || a.isRFC4862 || a.isRFC6598 ||
    a.isRFC5737 || (a.isRFC4193 && !(a.isTor || a.isI2P)) || a.isRFC4843 || a.isLocal)

/-- The loop at the end of `GetGroup`: `nBits` bits from byte `nStartByte` on. -/
def groupBytes (a : CNetAddr) (nStartByte nBits : Nat) : List UInt8 :=
  (a.ip.drop nStartByte).take (nBits/8) ++
    if nBits%8 = 0 then []
    else [a.getByte (15-(nStartByte+nBits/8)) ||| UInt8.ofNat (2^(nBits%8)-1)]

def getGroup (a : CNetAddr) : List UInt8 :=
  if a.isI2P then NetworkClass.i2p.byte :: a.i2pDest
  else if !a.isRoutable then [NetworkClass.unroutable.byte]
  else
    let nBits := if a.isLocal then 0 else 16
    if a.isIPv4 || a.isRFC6145 || a.isRFC6052 then
      NetworkClass.ipv4.byte :: a.groupBytes 12 nBits
    else if a.isRFC3964 then NetworkClass.ipv4.byte :: a.groupBytes 2 nBits
    else if a.isRFC4380 then
      [NetworkClass.ipv4.byte,a.getByte 3 ^^^ 0xFF,a.getByte 2 ^^^ 0xFF]
    else if a.isTor then NetworkClass.tor.byte :: a.groupBytes 6 4
    else
      let nBits := if a.getByte 15 == 0x20 && a.getByte 14 == 0x01 && a.getByte 13 == 0x04 &&
        a.getByte 12 == 0x70 then 36 else 32
      (if a.isLocal then 255 else NetworkClass.ipv6.byte) :: a.groupBytes 0 nBits

section Order

/-- The bytes as `memcmp` compares them. -/
def memKey (a : CNetAddr) : List Nat ×ₗ List Nat :=
  toLex (a.ip.map UInt8.toNat,a.i2pDest.map UInt8.toNat)

theorem memKey_injective : Function.Injective memKey := by
  intro a b h
  have hbytes : Function.Injective (List.map UInt8.toNat) :=
    List.map_injective_iff.mpr fun x y hxy => UInt8.toNat_inj.mp hxy
  obtain ⟨hip,hdest⟩ := Prod.mk.inj (toLex.injective h)
  cases a with
  | mk ip dest h₁ h₂ =>
  cases b with
  | mk ip' dest' h₁' h₂' =>
  obtain rfl := hbytes hip
  obtain rfl := hbytes hdest
  rfl

/-- `operator<`, which orders `std::set` and `std::map`. -/
instance : LinearOrder CNetAddr := LinearOrder.lift' memKey memKey_injective

end Order

end CNetAddr

/-- An address with a port. -/
structure CService extends CNetAddr where
  port : Uint16
  deriving DecidableEq, Repr

namespace CService

/-- `GetKey`; its assertion, that an I2P destination is marked as one, is a field of the
records that the address manager keeps. -/
def getKey (s : CService) : List UInt8 :=
  if s.isNativeI2P then s.i2pDest
  else s.ip ++ [UInt8.ofNat (s.port.toNat/0x100),UInt8.ofNat (s.port.toNat%0x100)]

end CService

end Anoncoin
